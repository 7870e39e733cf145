/-
Strict open against the naive criterion, and against holes.

The naive criterion asks two questions of the image: is there, where the scan
stopped, a complete record that is only too long, and does a record of
admissible length start anywhere after it.  `classify_eq` says that the verdict of
`classify` answers them; the theorems at the end carry the answer through
`recover`.
-/
import WalDb.Sequential
import WalDb.Safety
import WalDb.Strict.Correct

namespace WalDb
namespace Strict

open Lib Record

variable {S : Type} [WalStore S] {img : Image UInt8} {size m : Nat} {P : S → Prop}

/-- A complete record with a matching checksum, longer than `m`, is at `d`. -/
def OversizedAt (img : Image UInt8) (m d : Nat) : Prop :=
  ∃ p, recordAt img (2 ^ 32 - 1) d = some p ∧ m < p.length

/-- A complete record of at most `m` bytes with a matching checksum starts after
`d`. -/
def IntactAfter (img : Image UInt8) (m size d : Nat) : Prop :=
  ∃ a, d < a ∧ a + headerLen ≤ size ∧ (recordAt img m a).isSome

/-- The naive criterion for refusing a log whose scan stopped at `d`. -/
def Refuses (img : Image UInt8) (m size d : Nat) : Prop :=
  OversizedAt img m d ∨ IntactAfter img m size d

/-! ## The scan over every offset -/

/-- What each verdict of the scan from `lo` on means. -/
structure Verdict (img : Image UInt8) (m size base lo : Nat) (t : Tail) : Prop where
  torn : t = .torn → (∀ a, lo ≤ a → a + headerLen ≤ size → recordAt img m a = none) ∧
    (headerLen ≤ size - lo → ¬ Hole img lo size)
  intactAfter : t = .intactAfter →
    ∃ a, lo ≤ a ∧ a + headerLen ≤ size ∧ (recordAt img m a).isSome
  unreadable : t = .unreadable → Hole img base size
  not_oversized : t ≠ .oversized

/-- Before a candidate is looked at, the window holds its header or the scan has
met a hole. -/
theorem window_ready (V : View img size P) {w : Window} (hw : w.Holds img size) {pos : Nat}
    (hlo : w.start ≤ pos) (hhi : pos ≤ w.start + w.bytes.length)
    (hroom : pos + headerLen ≤ size) {s : S} (hP : P s) :
    ∃ w' whole s', w.ready pos size s = (.ok (w', whole), s') ∧ P s' ∧
      (whole = true → w'.Holds img size ∧ w'.start ≤ pos ∧
        pos + headerLen ≤ w'.start + w'.bytes.length) ∧
      (whole = false → Hole img pos size) := by
  have hsize := V.size_lt
  have h8 : headerLen = 8 := rfl
  have hcov := @Window.covers_eq img size w S hw hsize pos size hlo hhi s
  rw [Window.ready, Act.bind_ok hcov]
  by_cases hc : size ≤ w.start + w.bytes.length ∨ windowLen / 2 ≤ w.start + w.bytes.length - pos
  · refine ⟨w, true, s, by rw [decide_eq_true hc]; rfl, hP, fun _ => ⟨hw, hlo, ?_⟩,
      fun h => by cases h⟩
    unfold windowLen at hc
    omega
  · obtain ⟨w', whole, s', hfill, hP', hyes, hno⟩ := Window.fill_eq V (show pos ≤ size by omega) hP
    refine ⟨w', whole, s', by rw [decide_eq_false hc]; exact hfill, hP', fun h => ?_, hno⟩
    obtain ⟨hw', hstart, hlen⟩ := hyes h
    refine ⟨hw', by omega, ?_⟩
    unfold windowLen at hlen
    omega

theorem Verdict.of_intact {base lo : Nat} (hroom : lo + headerLen ≤ size)
    (h : (recordAt img m lo).isSome) : Verdict img m size base lo .intactAfter where
  torn h := by cases h
  intactAfter _ := ⟨lo, Nat.le_refl _, hroom, h⟩
  unreadable h := by cases h
  not_oversized h := by cases h

theorem Verdict.of_hole {base lo : Nat} (h : Hole img base size) :
    Verdict img m size base lo .unreadable where
  torn h := by cases h
  intactAfter h := by cases h
  unreadable _ := h
  not_oversized h := by cases h

theorem Verdict.of_end {base lo : Nat} (h : ¬ headerLen ≤ size - lo) :
    Verdict img m size base lo .torn where
  torn _ := ⟨fun a ha hle => absurd (show headerLen ≤ size - lo by omega) h, fun h' => absurd h' h⟩
  intactAfter h := by cases h
  unreadable h := by cases h
  not_oversized h := by cases h

/-- A candidate that fails leaves the verdict to the offsets after it. -/
theorem Verdict.step {base lo : Nat} {t : Tail} (hnone : recordAt img m lo = none)
    {hdr : List UInt8} (hhdr : img.read lo headerLen = some hdr)
    (h : Verdict img m size base (lo + 1) t) : Verdict img m size base lo t where
  torn ht := by
    have h8 : headerLen = 8 := rfl
    obtain ⟨hall, hread⟩ := h.torn ht
    refine ⟨fun a ha hle => ?_, fun hroom => ?_⟩
    · by_cases heq : a = lo
      · rw [heq, hnone]
      · exact hall a (by omega) hle
    · -- The header was read here; the offsets after it are covered below.
      rintro ⟨o, h1, h2, hnone⟩
      by_cases hin : o < lo + headerLen
      · exact not_hole_of_read hhdr ⟨o, h1, hin, hnone⟩
      · exact hread (by omega) ⟨o, by omega, h2, hnone⟩
  intactAfter ht := by
    obtain ⟨a, ha, hle, hsome⟩ := h.intactAfter ht
    exact ⟨a, by omega, hle, hsome⟩
  unreadable := h.unreadable
  not_oversized := h.not_oversized

theorem classifyFrom_eq (V : View img size P) {w : Window} (hw : w.Holds img size) {p : Prefix}
    (hok : MarksOk img p.base p.marks) {pos : Nat} (hbase : p.base ≤ pos) (hlo : w.start ≤ pos)
    (hhi : pos ≤ w.start + w.bytes.length) {s : S} (hP : P s) :
    ∃ t s', classifyFrom m size w p pos s = (.ok t, s') ∧ P s' ∧
      Verdict img m size p.base pos t := by
  have h8 : headerLen = 8 := rfl
  -- One offset a round, until no header fits.
  induction hn : size - pos generalizing w p pos s with
  | zero =>
      refine ⟨.torn, s, ?_, hP, Verdict.of_end (by omega)⟩
      rw [classifyFrom, if_neg (by omega)]
      rfl
  | succ n ih =>
      by_cases hroom : headerLen ≤ size - pos
      · obtain ⟨w', whole, s1, hready, hP1, hyes, hno⟩ :=
          window_ready V hw hlo hhi (by omega) hP
        cases whole with
        | false =>
            refine ⟨.unreadable, s1, ?_, hP1, Verdict.of_hole ((hno rfl).mono hbase (Nat.le_refl _))⟩
            rw [classifyFrom, if_pos hroom, Act.bind_ok hready]
            rfl
        | true =>
            obtain ⟨hw', hlo', hhi'⟩ := hyes rfl
            obtain ⟨hdr, hheader, hhdr⟩ := Window.header_eq hw' hlo' hhi' s1
            obtain ⟨r, s2, hcand, hP2, hcase⟩ :=
              candidate_eq (m := m) V hw' hok hbase hhdr hP1
            -- What the round does with the candidate.
            have hrun : ∃ k, classifyFrom m size w p pos s =
                  (candidate m size w' p pos hdr >>= k) s1 ∧
                k none = pure .unreadable ∧ (∀ p', k (some (true, p')) = pure .intactAfter) ∧
                ∀ p', k (some (false, p')) =
                  addChecked pos 1 >>= fun _ => classifyFrom m size w' p' (pos + 1) := by
              rw [classifyFrom, if_pos hroom, Act.bind_ok hready]
              exact ⟨_, Act.bind_ok hheader _, rfl, fun _ => rfl, fun _ => rfl⟩
            obtain ⟨k, hrun, hbad, hfound, hnext⟩ := hrun
            rw [hrun, Act.bind_ok hcand]
            rcases hcase with ⟨rfl, hhole⟩ | ⟨intact, p', rfl, hb, hok', hiff⟩
            · rw [hbad]
              exact ⟨.unreadable, s2, rfl, hP2, Verdict.of_hole hhole⟩
            · cases intact with
              | true =>
                  rw [hfound]
                  exact ⟨.intactAfter, s2, rfl, hP2,
                    Verdict.of_intact (by omega) (hiff.mp rfl)⟩
              | false =>
                  have hsize := V.size_lt
                  rw [hnext, Act.bind_ok (addChecked_ok (by omega) s2)]
                  have hnone : recordAt img m pos = none := by
                    rw [← Option.not_isSome_iff_eq_none, ← hiff]
                    decide
                  obtain ⟨t, s3, hrest, hP3, hv⟩ := @ih w' hw' p' (hb ▸ hok') (pos + 1)
                    (by omega) (by omega) (by omega) s2 hP2 (by omega)
                  rw [hb] at hv
                  exact ⟨t, s3, hrest, hP3, hv.step hnone hhdr⟩
      · refine ⟨.torn, s, ?_, hP, Verdict.of_end hroom⟩
        rw [classifyFrom, if_neg hroom]
        rfl

/-! ## The record at the damage -/

theorem streamCrc_eq (V : View img size P) (crc : BitVec 32) {lo hi : Nat} (hle : lo ≤ hi)
    (hhi : hi < 2 ^ 64) {s : S} (hP : P s) :
    ∃ r s', streamCrc crc lo hi s = (.ok r, s') ∧ P s' ∧
      (r = none ∧ Hole img lo hi ∨
        ∃ bs, img.read lo (hi - lo) = some bs ∧ r = some (crc32cAppend crc bs)) := by
  induction hn : hi - lo using Nat.strongRecOn generalizing lo crc s with
  | ind n ih =>
      by_cases hlt : lo < hi
      · obtain ⟨bs, s1, hr, hP1, hcase⟩ := readAt_cases V hP
          (show lo + min (hi - lo) markInterval < 2 ^ 64 by omega)
        have hpos : 0 < min (hi - lo) markInterval := by unfold markInterval; omega
        rcases hcase with ⟨hshort, hhole⟩ | ⟨hlen, hread⟩
        · refine ⟨none, s1, ?_, hP1, Or.inl ⟨rfl, hhole.mono (Nat.le_refl _) (by omega)⟩⟩
          rw [streamCrc, if_pos hlt, Act.bind_ok hr, if_pos hshort]
          rfl
        · obtain ⟨r, s2, hrest, hP2, hcase⟩ := ih (hi - (lo + min (hi - lo) markInterval))
            (by omega) (crc32cAppend crc bs) (by omega) hP1 rfl
          have hrun : streamCrc crc lo hi s = (.ok r, s2) := by
            rw [streamCrc, if_pos hlt, Act.bind_ok hr, if_neg (by omega),
              Act.bind_ok (addChecked_ok (by omega) s1), hrest]
          refine ⟨r, s2, hrun, hP2, ?_⟩
          rcases hcase with ⟨hnone, hhole⟩ | ⟨cs, hcs, hsome⟩
          · exact Or.inl ⟨hnone, hhole.mono (by omega) (Nat.le_refl _)⟩
          · refine Or.inr ⟨bs ++ cs, ?_, by rw [hsome, crc32cAppend_append]⟩
            have hall := (Image.read_append_iff hlen (Image.read_length hcs)).mpr ⟨hread, hcs⟩
            rw [← hn, ← hall]
            congr 1
            omega
      · refine ⟨some crc, s, ?_, hP, Or.inr ⟨[], ?_, by rw [crc32cAppend_nil]⟩⟩
        · rw [streamCrc, if_neg hlt]
          rfl
        · rw [← hn, show hi - lo = 0 by omega]
          rfl

theorem oversizedAt_iff {d : Nat} {hdr payload : List UInt8}
    (hhdr : img.read d headerLen = some hdr)
    (hpay : img.read (d + headerLen) (parseHeader hdr).len = some payload) :
    OversizedAt img m d ↔
      m < (parseHeader hdr).len ∧ verify hdr payload (parseHeader hdr).crc = true := by
  have hlen : (parseHeader hdr).len ≤ 2 ^ 32 - 1 := by have := parseHeader_len_lt hdr; omega
  have hl := Image.read_length hpay
  have hrec : recordAt img (2 ^ 32 - 1) d =
      if verify hdr payload (parseHeader hdr).crc then some payload else none := by
    simp only [recordAt, hhdr, Option.bind_some, if_pos hlen, hpay]
  unfold OversizedAt
  rw [hrec]
  constructor
  · rintro ⟨p, hp, hm⟩
    split at hp
    · rename_i hv
      cases hp
      exact ⟨by omega, hv⟩
    · cases hp
  · rintro ⟨hm, hv⟩
    exact ⟨payload, if_pos hv, by omega⟩

theorem OversizedAt.reads {d : Nat} (h : OversizedAt img m d) :
    ∃ hdr payload, img.read d headerLen = some hdr ∧ m < (parseHeader hdr).len ∧
      img.read (d + headerLen) (parseHeader hdr).len = some payload := by
  obtain ⟨p, hp, hm⟩ := h
  obtain ⟨hlen, hhdr, hpay⟩ := recordAt_some_reads (by decide) hp
  have hph := @parseHeader_header p (by omega)
  refine ⟨header p, p, hhdr, ?_, ?_⟩ <;> rw [hph]
  · exact hm
  · exact hpay

/-- What `oversized` answers about the record at the damage. -/
theorem oversized_eq (V : View img size P) (m : Nat) {d : Nat} (hd : d < size) {s : S} (hP : P s) :
    ∃ r s', oversized m d size s = (.ok r, s') ∧ P s' ∧
      (r = none ∧ ¬ OversizedAt img m d ∧
          (headerLen ≤ size - d → ∃ hdr, img.read d headerLen = some hdr) ∨
        r = some .unreadable ∧ Hole img d size ∨
        r = some .oversized ∧ OversizedAt img m d) := by
  have hsize := V.size_lt
  by_cases hroom : size - d < headerLen
  · refine ⟨none, s, by rw [oversized, if_pos hroom]; rfl, hP, Or.inl ⟨rfl, fun h => ?_,
      fun h => by omega⟩⟩
    obtain ⟨hdr, payload, hhdr, -⟩ := h.reads
    have := V.read_le (by decide) hhdr
    omega
  obtain ⟨hdr, s1, hr, hP1, hcase⟩ := readAt_cases V hP
    (show d + headerLen < 2 ^ 64 by have := V.size_lt; omega)
  rcases hcase with ⟨hshort, hhole⟩ | ⟨hlen, hhdr⟩
  · refine ⟨some .unreadable, s1, ?_, hP1, Or.inr (Or.inl ⟨rfl, hhole.mono (Nat.le_refl _) (by omega)⟩)⟩
    rw [oversized, if_neg hroom, Act.bind_ok hr, if_pos hshort]
    rfl
  by_cases hbig : (parseHeader hdr).len ≤ m
  · refine ⟨none, s1, ?_, hP1, Or.inl ⟨rfl, fun h => ?_, fun _ => ⟨hdr, hhdr⟩⟩⟩
    · rw [oversized, if_neg hroom, Act.bind_ok hr, if_neg (by omega),
        Act.bind_ok (addChecked_ok (by omega) s1), if_pos hbig]
      rfl
    · obtain ⟨hdr', payload, hhdr', hm, -⟩ := h.reads
      rw [hhdr] at hhdr'
      cases hhdr'
      omega
  by_cases hfit : size - (d + headerLen) < (parseHeader hdr).len
  · refine ⟨none, s1, ?_, hP1, Or.inl ⟨rfl, fun h => ?_, fun _ => ⟨hdr, hhdr⟩⟩⟩
    · rw [oversized, if_neg hroom, Act.bind_ok hr, if_neg (by omega),
        Act.bind_ok (addChecked_ok (by omega) s1), if_neg hbig,
        Act.bind_ok (subChecked_ok (by omega) s1), if_pos hfit]
      rfl
    · obtain ⟨hdr', payload, hhdr', hm, hpay⟩ := h.reads
      rw [hhdr] at hhdr'
      cases hhdr'
      have := V.read_le (by omega) hpay
      omega
  obtain ⟨r, s2, hstream, hP2, hcase⟩ := streamCrc_eq V (crc32c (hdr.drop lenOffset))
    (show d + headerLen ≤ d + headerLen + (parseHeader hdr).len by omega) (by omega) hP1
  have hrun : oversized m d size s = (.ok (match r with
      | none => some .unreadable
      | some crc => if crc = (parseHeader hdr).crc then some .oversized else none), s2) := by
    rw [oversized, if_neg hroom, Act.bind_ok hr, if_neg (by omega),
      Act.bind_ok (addChecked_ok (by omega) s1), if_neg hbig,
      Act.bind_ok (subChecked_ok (by omega) s1), if_neg hfit,
      Act.bind_ok (addChecked_ok (by omega) s1), Act.bind_ok hstream]
    cases r <;> rfl
  refine ⟨_, s2, hrun, hP2, ?_⟩
  rcases hcase with ⟨rfl, hhole⟩ | ⟨payload, hpay, rfl⟩
  · exact Or.inr (Or.inl ⟨rfl, hhole.mono (by omega) (by omega)⟩)
  · rw [Nat.add_sub_cancel_left] at hpay
    have hiff := oversizedAt_iff (m := m) hhdr hpay
    rw [verify_iff_crc hlen, crc32c_append] at hiff
    dsimp only
    by_cases hcrc : crc32cAppend (crc32c (hdr.drop lenOffset)) payload = (parseHeader hdr).crc
    · rw [if_pos hcrc]
      exact Or.inr (Or.inr ⟨rfl, hiff.mpr ⟨by omega, hcrc⟩⟩)
    · rw [if_neg hcrc]
      exact Or.inl ⟨rfl, fun h => hcrc (hiff.mp h).2, fun _ => ⟨hdr, hhdr⟩⟩

/-! ## The verdict, and the open that follows it -/

/-- What each verdict of `classify` means. -/
structure Answers (img : Image UInt8) (m size d : Nat) (t : Tail) : Prop where
  torn : t = .torn → ¬ Refuses img m size d ∧ (headerLen + 1 ≤ size - d → ¬ Hole img d size)
  intactAfter : t = .intactAfter → IntactAfter img m size d
  oversized : t = .oversized → OversizedAt img m d
  unreadable : t = .unreadable → Hole img d size

theorem classify_eq (V : View img size P) (m : Nat) {d : Nat} (hd : d < size) {s : S} (hP : P s) :
    ∃ t s', classify m d size s = (.ok t, s') ∧ P s' ∧ Answers img m size d t := by
  have hsize := V.size_lt
  have h8 : headerLen = 8 := rfl
  obtain ⟨r, s1, hover, hP1, hcase⟩ := oversized_eq V m hd hP
  rcases hcase with ⟨rfl, hnot, hhdr⟩ | ⟨rfl, hhole⟩ | ⟨rfl, hyes⟩
  · obtain ⟨t, s2, hfrom, hP2, hv⟩ := @classifyFrom_eq _ _ _ _ m _ V (Window.new (d + 1))
      (Window.new_holds (show d + 1 ≤ size by omega)) (Prefix.new (d + 1))
      (marksOk_new img (d + 1)) (d + 1) (Nat.le_refl _) (Nat.le_refl _) (Nat.le_refl _) s1 hP1
    refine ⟨t, s2, ?_, hP2, fun ht => ⟨?_, fun hroom => ?_⟩, fun ht => ?_, fun ht => ?_, fun ht => ?_⟩
    · rw [classify, Act.bind_ok hover]
      simp only [checkedAdd_of_lt (show d + 1 < 2 ^ 64 by omega)]
      exact hfrom
    · rintro (hover | ⟨a, ha, hle, hsome⟩)
      · exact hnot hover
      · rw [(hv.torn ht).1 a ha hle] at hsome
        cases hsome
    · -- The first byte was read with the header, the others by the scan.
      obtain ⟨hdr, hread⟩ := hhdr (by omega)
      rintro ⟨o, h1, h2, hnone⟩
      by_cases ho : o < d + headerLen
      · exact not_hole_of_read hread ⟨o, h1, ho, hnone⟩
      · exact (hv.torn ht).2 (by omega) ⟨o, by omega, h2, hnone⟩
    · obtain ⟨a, ha, hle, hsome⟩ := hv.intactAfter ht
      exact ⟨a, ha, hle, hsome⟩
    · exact absurd ht hv.not_oversized
    · exact (hv.unreadable ht).mono (Nat.le_succ d) (Nat.le_refl _)
  · refine ⟨.unreadable, s1, by rw [classify, Act.bind_ok hover]; rfl, hP1, ?_⟩
    exact { torn := nofun, intactAfter := nofun, oversized := nofun, unreadable := fun _ => hhole }
  · refine ⟨.oversized, s1, by rw [classify, Act.bind_ok hover]; rfl, hP1, ?_⟩
    exact { torn := nofun, intactAfter := nofun, oversized := fun _ => hyes, unreadable := nofun }

/-- The branch on a strict policy: a verdict other than `torn` is a refusal that
leaves the store alone, and `torn` cuts as the default policy does. -/
theorem cutTail_strict (V : View img size P) {config : WalConfig} (hpol : config.openPolicy = .strict)
    {d : Nat} (hd : d < size) {s : S} (hP : P s) :
    ∃ t s', P s' ∧ Answers img config.maxRecordSize size d t ∧
      (t = .torn → cutTail config d size s = WalStore.truncate d s') ∧
      (t ≠ .torn → ∃ reason, cutTail config d size s = (.error (.err (.corruption d reason)), s')) := by
  obtain ⟨t, s', hclass, hP', hans⟩ := classify_eq V config.maxRecordSize hd hP
  refine ⟨t, s', hP', hans, fun ht => ?_, fun ht => ?_⟩
  · rw [cutTail, if_pos hpol, Act.bind_ok hclass, ht]
  · rw [cutTail, if_pos hpol, Act.bind_ok hclass]
    cases t with
    | torn => exact absurd rfl ht
    | intactAfter => exact ⟨_, rfl⟩
    | unreadable => exact ⟨_, rfl⟩
    | oversized => exact ⟨_, rfl⟩

/-- `scan` stopping at `d` is the image's records ending there. -/
theorem logEnd_of_scan (V : View img size P) (hm : m < 2 ^ 32) {head d : Nat} {s : S} (hP : P s)
    (h : (scan m size head s).1 = .ok d) : logEnd img m size head = d := by
  obtain ⟨s', hscan, -⟩ := scan_eq V hm head hP
  rw [hscan] at h
  exact Except.ok.inj h

theorem not_hole_ofList {b : List UInt8} {lo : Nat} : ¬ Hole (Image.ofList b) lo b.length := by
  rintro ⟨o, -, ho, hnone⟩
  rw [Image.ofList, List.getElem?_eq_getElem ho] at hnone
  cases hnone

/-- `recover` under either policy, where the scan stopped at `d`. -/
theorem recover_at (V : View img size P) (config : WalConfig) {head d : Nat} {s : S} (hP : P s)
    (hscan : (scan config.maxRecordSize size head s).1 = .ok d) (hd : d < size) :
    ∃ s', P s' ∧ recover config head s =
      (cutTail config d size >>= fun _ => pure { endAt := d, cut := size - d }) s' := by
  have hend := logEnd_of_scan V config.maxRecordSize_lt hP hscan
  obtain ⟨s', hP', -, hcut⟩ := recover_eq V config head hP
  rw [hend] at hcut
  exact ⟨s', hP', hcut hd⟩

/-- A strict open either refuses, for one of the reasons a verdict gives, or cuts
as the default policy does. -/
theorem recover_strict (V : View img size P) (config : WalConfig) {head d : Nat} {s : S} (hP : P s)
    (hscan : (scan config.maxRecordSize size head s).1 = .ok d) (hd : d < size) :
    ∃ t s', P s' ∧ Answers img config.maxRecordSize size d t ∧
      (t = .torn → recover (config.withOpenPolicy .strict) head s =
        (WalStore.truncate d >>= fun _ => pure { endAt := d, cut := size - d }) s') ∧
      (t ≠ .torn → ∃ reason, recover (config.withOpenPolicy .strict) head s =
        (.error (.err (.corruption d reason)), s')) := by
  obtain ⟨s1, hP1, hrec⟩ := recover_at V (config.withOpenPolicy .strict) hP hscan hd
  obtain ⟨t, s2, hP2, hans, htorn, href⟩ :=
    cutTail_strict V (show (config.withOpenPolicy .strict).openPolicy = .strict from rfl) hd hP1
  refine ⟨t, s2, hP2, hans, fun ht => ?_, fun ht => ?_⟩
  · rw [hrec]
    show Act.bind _ _ s1 = Act.bind _ _ s2
    simp only [Act.bind, htorn ht]
  · obtain ⟨reason, hcut⟩ := href ht
    exact ⟨reason, by rw [hrec, Act.bind_error hcut]⟩

/-- Strict open decides the naive criterion.  Over a flat store it refuses with
corruption at the offset where the scan stopped exactly when the criterion holds,
leaving the store as it was, and otherwise does what the default policy does.
Over any store with a hole between there and its end it refuses. -/
theorem strict_open_decides_naive :
    (∀ (store : MemStore) (config : WalConfig) (head d : Nat),
      (scan config.maxRecordSize store.data.length head store).1 = .ok d →
      d < store.data.length →
      let strict := recover (config.withOpenPolicy .strict) head store
      let refuses := Refuses (Image.ofList store.data) config.maxRecordSize store.data.length d
      ((∃ reason, strict.1 = .error (.err (.corruption d reason))) ↔ refuses) ∧
        (refuses → strict.2 = store) ∧
        (¬ refuses → strict = recover (config.withOpenPolicy .truncateTail) head store)) ∧
    (∀ (S : Type) [WalStore S] (img : Image UInt8) (size : Nat) (P : S → Prop),
      View img size P → ∀ (store : S) (config : WalConfig) (head d : Nat), P store →
      (scan config.maxRecordSize size head store).1 = .ok d →
      headerLen + 1 ≤ size - d → Hole img d size →
      ∃ reason store', P store' ∧
        recover (config.withOpenPolicy .strict) head store =
          (.error (.err (.corruption d reason)), store')) := by
  refine ⟨fun store config head d hscan hd => ?_,
    fun S _ img size P V store config head d hP hscan hroom hhole => ?_⟩
  · have V := MemStore.flat.view store
    obtain ⟨t, s1, hs1, hans, htorn, href⟩ := recover_strict V config rfl hscan hd
    obtain ⟨s2, hs2, hdef⟩ := recover_at V (config.withOpenPolicy .truncateTail) rfl hscan hd
    rw [hs1] at htorn href
    rw [hs2, cutTail_truncateTail rfl] at hdef
    by_cases ht : t = .torn
    · obtain ⟨hnot, -⟩ := hans.torn ht
      have hcut := htorn ht
      refine ⟨⟨fun ⟨reason, hr⟩ => ?_, fun h => absurd h hnot⟩, fun h => absurd h hnot, fun _ => ?_⟩
      · rw [hcut] at hr
        cases hr
      · rw [hcut, hdef]
    · have hyes : Refuses (Image.ofList store.data) config.maxRecordSize store.data.length d := by
        cases t with
        | torn => exact absurd rfl ht
        | intactAfter => exact Or.inr (hans.intactAfter rfl)
        | oversized => exact Or.inl (hans.oversized rfl)
        | unreadable => exact absurd (hans.unreadable rfl) not_hole_ofList
      obtain ⟨reason, hr⟩ := href ht
      dsimp only
      rw [hr]
      exact ⟨⟨fun _ => hyes, fun _ => ⟨reason, rfl⟩⟩, fun _ => rfl, fun h => absurd hyes h⟩
  · obtain ⟨t, s', hP', hans, -, href⟩ := recover_strict V config hP hscan (by omega)
    have ht : t ≠ .torn := fun ht => (hans.torn ht).2 hroom hhole
    obtain ⟨reason, hr⟩ := href ht
    exact ⟨reason, s', hP', hr⟩

/-- One byte of noise before an empty record: the scan stops at once, and the
record after the damage makes strict open refuse.  Nine unreadable bytes do, too. -/
theorem strict_open_decides_naive_noise :
    (∃ reason, (recover ((⟨0, .stopAtFirstError, .truncateTail, by decide⟩ :
        WalConfig).withOpenPolicy .strict) 0
        (⟨0xFF :: frame [], by decide +kernel⟩ : MemStore)).1 =
      .error (.err (.corruption 0 reason))) ∧
    ∃ reason store', store' = (⟨List.replicate 9 none, by decide⟩ : SparseStore) ∧
      recover (WalConfig.new.withOpenPolicy .strict) 0
        (⟨List.replicate 9 none, by decide⟩ : SparseStore) =
      (.error (.err (.corruption 0 reason)), store') :=
  ⟨(strict_open_decides_naive.1 ⟨0xFF :: frame [], by decide +kernel⟩
      ⟨0, .stopAtFirstError, .truncateTail, by decide⟩ 0 0 (by decide +kernel)
      (by decide +kernel)).1.mpr
      (Or.inr ⟨1, by decide, by decide +kernel, by decide +kernel⟩),
    strict_open_decides_naive.2 SparseStore _ _ _
      (SparseStore.view ⟨List.replicate 9 none, by decide⟩) _ WalConfig.new 0 0 rfl
      (by decide +kernel) (by decide) ⟨0, by decide, by decide, rfl⟩⟩

end Strict

/-! ## What an open leaves behind, whatever the policy -/

section Open

open Lib Record

variable {S : Type} [WalStore S] {data : S → List UInt8} {headAt : S → Nat}

section View

variable {img : Image UInt8} {size : Nat} {P : S → Prop} {reach : Nat → Nat → Prop}

/-- The strict check asks for nothing out of reach of the store's end. -/
theorem Sight.tameReads (V : Sight reach img size P) : TameReads (Strict.MayRead size) P where
  read {s off n} hP hask := by
    have hfit := V.size_lt
    have hle := hask.2
    cases h : img.read off n with
    | none =>
        refine (V.missing hP h).mono (fun _ _ h => ⟨?_, h.2⟩) fun _ _ h => absurd (V.within hle) h.2
        exact Nat.le_of_lt (h.1 (by omega))
    | some bs =>
        obtain ⟨s', hrun, hP'⟩ := V.full hP h
        exact Act.ends_of_ok hrun ⟨Nat.le_of_eq (Image.read_length h), hP'⟩

/-- A cut that succeeds is a truncation, under either policy. -/
theorem cutTail_eq_ok (V : Sight reach img size P) {config : WalConfig} {d : Nat} {s s' : S}
    (hP : P s) (h : cutTail config d size s = (.ok (), s')) :
    ∃ s1, P s1 ∧ WalStore.truncate d s1 = (.ok (), s') := by
  cases hpol : config.openPolicy with
  | truncateTail =>
      rw [cutTail_truncateTail hpol] at h
      exact ⟨s, hP, h⟩
  | strict =>
      rw [cutTail, if_pos hpol] at h
      obtain ⟨tail, s1, hclassify, h⟩ := Act.bind_eq_ok h
      have hsafe : Safe P (Strict.classify config.maxRecordSize d size) s fun _ => True :=
        Strict.classify_safe V.tameReads V.size_lt hP
      rw [Safe, Act.Ends, hclassify] at hsafe
      cases tail with
      | torn => exact ⟨s1, hsafe.2, h⟩
      | intactAfter => cases h
      | unreadable => cases h
      | oversized => cases h

/-- A successful open has found the records from the head on, and has cut the store at their
end unless they reach its own. -/
theorem open_eq_ok (V : Sight reach img size P) {config : WalConfig} {head : Nat} {s t : S} (hP : P s)
    (hhead : WalStore.head s = (.ok head, s)) {wal : Wal S}
    (h : Wal.withStoreAndConfig config s = (.ok wal, t)) :
    let e := logEnd img config.maxRecordSize size head
    wal = openedLog config head e (size - e) t ∧
      (¬ e < size ∧ P t ∨ e < size ∧ ∃ s1, P s1 ∧ WalStore.truncate e s1 = (.ok (), t)) := by
  intro e
  rw [Wal.withStoreAndConfig, Act.bind_ok hhead] at h
  obtain ⟨rec, s2, hrec, h⟩ := Act.bind_eq_ok h
  rw [recover, Act.bind_ok (V.len_eq hP)] at hrec
  obtain ⟨offset, s1, hscan, hrec⟩ := Act.bind_eq_ok hrec
  have hends := scan_ends V config.maxRecordSize_lt head hP
  rw [Act.Ends, hscan] at hends
  obtain ⟨rfl, hP1⟩ := hends
  by_cases hlt : e < size
  · rw [if_pos hlt] at hrec
    obtain ⟨u, s3, hct, hret⟩ := Act.bind_eq_ok hrec
    cases hret
    cases h
    exact ⟨rfl, Or.inr ⟨hlt, cutTail_eq_ok V hP1 hct⟩⟩
  · rw [if_neg hlt] at hrec
    cases hrec
    cases h
    exact ⟨rfl, Or.inl ⟨hlt, hP1⟩⟩

end View

/-- A successful open of a flat store leaves the intact records of its bytes, with
the tail and both watermarks at their end. -/
theorem FlatStore.open_ok (F : FlatStore S data headAt) {config : WalConfig} {s : S} {wal : Wal S}
    (h : Wal.withStoreAndConfig config s = (.ok wal, wal.store)) :
    let e := logEnd (Image.ofList (data s)) config.maxRecordSize (data s).length (headAt s)
    data wal.store = (data s).take e ∧ headAt wal.store = headAt s ∧ wal.tail = e ∧
      wal.head = headAt s ∧ wal.commit = Commit.new e ∧
      wal.maxRecordSize = config.maxRecordSize := by
  intro e
  have hle : e ≤ (data s).length := logEnd_le config.maxRecordSize_lt
    (fun o ho => List.getElem?_eq_none ho) (F.headAt_le s)
  obtain ⟨hwal, hstore⟩ := open_eq_ok (F.view s).sight rfl (F.head_eq s) h
  have hkey : data wal.store = (data s).take e ∧ headAt wal.store = headAt s := by
    rcases hstore with ⟨hge, heq⟩ | ⟨-, s1, rfl, htrunc⟩
    · rw [heq, List.take_of_length_le (Nat.not_lt.mp hge)]
      exact ⟨rfl, rfl⟩
    · obtain ⟨s2, ht, hdata, hh⟩ := F.truncate_eq e s1 (Nat.le_add_right _ _) hle
      rw [htrunc] at ht
      cases ht
      exact ⟨hdata, hh⟩
  refine ⟨hkey.1, hkey.2, ?_, ?_, ?_, ?_⟩ <;> rw [hwal] <;> rfl

end Open
end WalDb
