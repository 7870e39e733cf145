/-
Iterating over bytes that have changed since the log was opened.

The open scan leaves nothing but records below the watermark, so an iterator meets
damage only where bytes changed later.  While the length fields stand it keeps in step
with the records whatever else changed (`collect_framed`).  A changed length can send it
anywhere, and one that points past the end of the store makes it stop without an error
(`drain_spec`).
-/
import WalDb.Recovery

namespace WalDb

open Lib Record

namespace Wal

variable {S : Type} [WalStore S] {img : Image UInt8} {size : Nat} {P : S → Prop}

/-- At `off` there are too few bytes for a header, or for the payload that a header
there announces within the maximum. -/
def RunsOut (img : Image UInt8) (m off : Nat) : Prop :=
  img.read off headerLen = none ∨
    ∃ header, img.read off headerLen = some header ∧ (parseHeader header).len ≤ m ∧
      img.read (off + headerLen) (parseHeader header).len = none

theorem look_eq_ended_iff {m off : Nat} : look img m off = .ended ↔ RunsOut img m off := by
  unfold look RunsOut
  cases hhdr : img.read off headerLen with
  | none => simp
  | some header =>
      by_cases hlen : m < (parseHeader header).len
      · simp [hlen]
      · cases hpay : img.read (off + headerLen) (parseHeader header).len with
        | none => simp [hlen, hpay, Nat.not_lt.mp hlen]
        | some payload =>
            simp only [if_neg hlen, hpay]
            split <;> simp [hpay]

/-- Where there is no record a step ends the iteration or reports corruption there. -/
theorem look_none {m off : Nat} (h : recordAt img m off = none) :
    look img m off = .ended ∨
      ∃ detail next, look img m off = .damaged (.corruption off detail) next := by
  unfold look
  rcases recordAt_none_cases h with
    hnone | ⟨header, hhdr, hlen | ⟨hlen, hnone | ⟨payload, hpay, hver⟩⟩⟩
  · rw [hnone]
    exact Or.inl rfl
  · simp only [hhdr, if_pos hlen]
    exact Or.inr ⟨_, _, rfl⟩
  · left
    simp only [hhdr, if_neg (Nat.not_lt.mpr hlen), hnone]
  · simp only [hhdr, if_neg (Nat.not_lt.mpr hlen), hpay, if_pos hver]
    exact Or.inr ⟨_, _, rfl⟩

namespace Iter

/-- A step returns what is found, also where the bytes run out. -/
theorem step_eq_look (B : Bounded img size P) {it : Iter} {wal : Wal S}
    (hoff : it.offset < 2 ^ 64) (hP : P wal.store) :
    ∃ s', it.step wal =
        (.ok (look img wal.maxRecordSize it.offset), { wal with store := s' }) ∧ P s' := by
  by_cases hended : look img wal.maxRecordSize it.offset = .ended
  · rw [hended]
    rcases look_eq_ended_iff.mp hended with hnone | ⟨header, hhdr, hlen, hnone⟩
    · obtain ⟨bs, s1, hr, hshort, hP1⟩ := B.missing hP hoff hnone
      refine ⟨s1, ?_, hP1⟩
      rw [step, Act.get_bind, Act.bind_ok (onStore_ok hr), if_pos hshort]
      rfl
    · have hfit := B.read_le (by decide) hhdr
      have hsize := B.size_lt
      obtain ⟨s1, hr1, hP1⟩ := B.full hP hhdr
      obtain ⟨bs, s2, hr2, hshort, hP2⟩ := B.missing hP1 (by omega) hnone
      refine ⟨s2, ?_, hP2⟩
      rw [step, Act.get_bind, Act.bind_ok (onStore_ok hr1),
        if_neg (by rw [Image.read_length hhdr]; omega), if_neg (Nat.not_lt.mpr hlen),
        checkedAdd_of_lt (by omega)]
      simp only
      rw [Act.bind_ok (onStore_ok hr2), if_pos hshort]
      rfl
  · exact step_look B.serves hended hP

/-- The item that a step gives, and the iterator afterwards. -/
def after (it : Iter) : Step → Option (Except WalError Record) × Iter
  | .record r next => (some (.ok r), { it with offset := next })
  | .damaged e (some next) =>
      (some (.error e),
        if it.policy = .skipBadRecords then { it with offset := next } else { it with done := true })
  | .damaged e none => (some (.error e), { it with done := true })
  | .ended => (none, { it with done := true })

theorem after_damaged (it : Iter) (e : WalError) (next : Option Nat) :
    ∃ it', it.after (.damaged e next) = (some (.error e), it') := by
  cases next with
  | none => exact ⟨_, rfl⟩
  | some next => exact ⟨_, rfl⟩

/-- An error after which the iterator has nowhere to go, or may not go on. -/
theorem after_stop {it : Iter} {next : Option Nat}
    (h : ∀ n, next = some n → it.policy ≠ .skipBadRecords) (e : WalError) :
    it.after (.damaged e next) = (some (.error e), { it with done := true }) := by
  cases next with
  | none => rfl
  | some n => simp only [after, if_neg (h n rfl)]

theorem after_skip {it : Iter} (hskip : it.policy = .skipBadRecords) (e : WalError) (next : Nat) :
    it.after (.damaged e (some next)) = (some (.error e), { it with offset := next }) := by
  simp only [after, if_pos hskip]

theorem next_of_step {it : Iter} {wal wal' : Wal S} (hdone : it.done = false)
    (hlt : it.offset < it.endAt) {st : Step} (h : it.step wal = (.ok st, wal')) :
    it.next wal = (.ok (it.after st), wal') := by
  rw [next, if_neg (by rw [hdone]; simp; omega), Act.attempt_bind, h]
  cases st with
  | record r next => rfl
  | damaged e next =>
      cases next with
      | none => rfl
      | some next =>
          simp only [after]
          split <;> rfl
  | ended => rfl

end Iter

/-! ## Damage that leaves the lengths alone -/

/-- Where the records of `ps` were, from `off` on, there still are bytes with their
length fields among them. -/
def Framed (img : Image UInt8) (off : Nat) (ps : List (List UInt8)) : Prop :=
  ∀ r ∈ located off ps, ∃ header data, img.read r.1 headerLen = some header ∧
    (parseHeader header).len = r.2.length ∧ img.read (r.1 + headerLen) r.2.length = some data

/-- What iteration makes of the bytes now stored where the record `r` was. -/
def storedItem (img : Image UInt8) (r : Nat × List UInt8) : Except WalError Record :=
  let header := (img.read r.1 headerLen).getD []
  let data := (img.read (r.1 + headerLen) r.2.length).getD []
  if verify header data (parseHeader header).crc then .ok { lsn := r.1, data := data }
  else .error (.corruption r.1 "checksum mismatch")

/-- The items up to the first error and with it. -/
def uptoError : List (Except WalError Record) → List (Except WalError Record)
  | [] => []
  | .ok r :: items => .ok r :: uptoError items
  | .error e :: _ => [.error e]

/-- Those of the items that a policy lets an iterator yield. -/
def shown (policy : RecoveryPolicy) (items : List (Except WalError Record)) :
    List (Except WalError Record) :=
  if policy = .skipBadRecords then items else uptoError items

/-- After this item the policy ends the iteration. -/
def Stops (policy : RecoveryPolicy) : Except WalError Record → Prop
  | .ok _ => False
  | .error _ => policy ≠ .skipBadRecords

theorem shown_stop {policy : RecoveryPolicy} {item : Except WalError Record}
    (h : Stops policy item) (items : List (Except WalError Record)) :
    shown policy (item :: items) = [item] := by
  cases item with
  | ok r => exact h.elim
  | error e =>
      rw [shown, if_neg h]
      rfl

theorem shown_go {policy : RecoveryPolicy} {item : Except WalError Record}
    (h : ¬ Stops policy item) (items : List (Except WalError Record)) :
    shown policy (item :: items) = item :: shown policy items := by
  cases item with
  | ok r =>
      unfold shown
      split <;> rfl
  | error e =>
      have hskip : policy = .skipBadRecords := not_not.mp h
      rw [shown, shown, if_pos hskip, if_pos hskip]

/-- Where the length field stands the step finds a record or a mismatch, and knows where
to go on. -/
theorem look_stored {m off : Nat} {header data : List UInt8}
    (hhdr : img.read off headerLen = some header) (hlen : (parseHeader header).len ≤ m)
    (hdata : img.read (off + headerLen) (parseHeader header).len = some data) :
    look img m off =
      if verify header data (parseHeader header).crc = false then
        .damaged (.corruption off "checksum mismatch")
          (some (off + framedLen (parseHeader header).len))
      else .record { lsn := off, data := data } (off + framedLen (parseHeader header).len) := by
  simp only [look, hhdr, if_neg (Nat.not_lt.mpr hlen), hdata]

/-- The item for a record whose length field stands, and how the iterator goes on. -/
theorem Iter.next_framed (V : Serves img size P) {wal : Wal S} {it : Iter}
    {p header data : List UInt8} (hfit : p.length ≤ wal.maxRecordSize)
    (hhdr : img.read it.offset headerLen = some header) (hlen : (parseHeader header).len = p.length)
    (hdata : img.read (it.offset + headerLen) p.length = some data) (hdone : it.done = false)
    (hlt : it.offset < it.endAt) (hP : P wal.store) :
    ∃ it' s', it.next wal =
        (.ok (some (storedItem img (it.offset, p)), it'), { wal with store := s' }) ∧ P s' ∧
      (it' = { it with offset := it.offset + framedLen p.length } ∧
          ¬ Stops it.policy (storedItem img (it.offset, p)) ∨
        it'.done = true ∧ Stops it.policy (storedItem img (it.offset, p))) := by
  have hlook : look img wal.maxRecordSize it.offset = _ :=
    look_stored hhdr (by rw [hlen]; exact hfit) (by rw [hlen]; exact hdata)
  rw [hlen] at hlook
  have hitem : storedItem img (it.offset, p) =
      if verify header data (parseHeader header).crc then .ok { lsn := it.offset, data := data }
      else .error (.corruption it.offset "checksum mismatch") := by
    simp only [storedItem, hhdr, hdata, Option.getD_some]
  have hne : look img wal.maxRecordSize it.offset ≠ .ended := by
    rw [hlook]
    split <;> exact nofun
  obtain ⟨s1, hstep, hP1⟩ := step_look V hne hP
  have hnext := next_of_step hdone hlt hstep
  rw [hlook] at hnext
  rw [hitem]
  by_cases hver : verify header data (parseHeader header).crc = true
  · rw [if_neg (by rw [hver]; exact nofun)] at hnext
    rw [if_pos hver]
    exact ⟨_, s1, hnext, hP1, Or.inl ⟨rfl, id⟩⟩
  · rw [if_pos (Bool.not_eq_true _ ▸ hver)] at hnext
    rw [if_neg hver]
    by_cases hskip : it.policy = .skipBadRecords
    · rw [after_skip hskip] at hnext
      exact ⟨_, s1, hnext, hP1, Or.inl ⟨rfl, fun h => h hskip⟩⟩
    · rw [after_stop fun _ _ => hskip] at hnext
      exact ⟨_, s1, hnext, hP1, Or.inr ⟨rfl, hskip⟩⟩

/-- Over bytes whose length fields stand an iterator yields one item for each record, as
far as its policy lets it. -/
theorem Iter.collect_framed (V : Serves img size P) {wal : Wal S} {ps : List (List UInt8)}
    (it : Iter) (hfit : ∀ p ∈ ps, p.length ≤ wal.maxRecordSize)
    (hframed : Framed img it.offset ps) (hdone : it.done = false)
    (hend : it.endAt = it.offset + (frames ps).length) (hP : P wal.store) :
    ∃ s', it.collect wal =
        (.ok (shown it.policy ((located it.offset ps).map (storedItem img))),
          { wal with store := s' }) ∧ P s' := by
  induction ps generalizing it wal with
  | nil =>
      refine ⟨wal.store, ?_, hP⟩
      rw [collect_none (next_stop (Or.inr (by simp [hend])))]
      show _ = (Except.ok (shown it.policy []), wal)
      unfold shown
      split <;> rfl
  | cons p ps ih =>
      obtain ⟨header, data, hhdr, hlen, hdata⟩ := hframed _ List.mem_cons_self
      have hsum : (frames (p :: ps)).length = framedLen p.length + (frames ps).length := by simp
      have hpos : 0 < framedLen p.length := framedLen_pos _
      obtain ⟨it', s1, hnext, hP1, hafter⟩ := Iter.next_framed V (hfit p List.mem_cons_self)
        hhdr hlen hdata hdone (by omega) hP
      show ∃ s', _ = (Except.ok (shown it.policy (storedItem img (it.offset, p) ::
        (located (it.offset + framedLen p.length) ps).map (storedItem img))), _) ∧ P s'
      rcases hafter with ⟨rfl, hgo⟩ | ⟨hdone', hstop⟩
      · -- Past this record the rest is iterated the same way.
        obtain ⟨s2, hcol, hP2⟩ := @ih { wal with store := s1 }
          { it with offset := it.offset + framedLen p.length }
          (fun q hq => hfit q (List.mem_cons_of_mem p hq))
          (fun r hr => hframed r (List.mem_cons_of_mem _ hr)) hdone
          (by show it.endAt = _; dsimp only; omega) hP1
        refine ⟨s2, ?_, hP2⟩
        rw [shown_go hgo]
        exact collect_some hnext hcol
      · refine ⟨s1, ?_, hP1⟩
        rw [shown_stop hstop]
        exact collect_some hnext (collect_none (next_stop (Or.inl hdone')))

/-- An iterator yields the records before a place where the bytes run out, and ends. -/
theorem Iter.collect_runsOut (B : Bounded img size P) {wal : Wal S}
    (hm : wal.maxRecordSize < 2 ^ 32) {ps : List (List UInt8)} (it : Iter)
    (hps : Intact img wal.maxRecordSize it.offset ps) (hdone : it.done = false)
    (hlt : it.offset + (frames ps).length < it.endAt) (hend : it.endAt < 2 ^ 64)
    (hout : RunsOut img wal.maxRecordSize (it.offset + (frames ps).length)) (hP : P wal.store) :
    ∃ s', it.collect wal =
        (.ok ((recordsFrom it.offset ps).map .ok), { wal with store := s' }) ∧ P s' := by
  rw [← List.append_nil ((recordsFrom it.offset ps).map Except.ok)]
  refine collect_after B.serves hm it hps hdone (Nat.le_of_lt hlt) (fun s1 hP1 => ?_) hP
  let it' : Iter := { it with offset := it.offset + (frames ps).length }
  obtain ⟨s2, hstep, hP2⟩ := @step_eq_look _ _ _ _ _ B it' { wal with store := s1 }
    (Nat.lt_trans hlt hend) hP1
  rw [show look img wal.maxRecordSize it'.offset = .ended from look_eq_ended_iff.mpr hout] at hstep
  exact ⟨s2, collect_none (next_of_step (show it'.done = false from hdone) hlt hstep), hP2⟩

/-- Where bytes of a record are missing the bytes run out at it. -/
theorem runsOut_of_read_none {img' : Image UInt8} {m off : Nat} (hm : m < 2 ^ 32) {p : List UInt8}
    (hp : recordAt img m off = some p) (hsub : ∀ o, img' o = img o ∨ img' o = none)
    (hnone : img'.read off (framedLen p.length) = none) : RunsOut img' m off := by
  obtain ⟨hlen, hframe⟩ := (recordAt_eq_some_iff hm).mp hp
  rw [frame_eq_header_append, framedLen, Image.read_append_iff (header_length _) rfl] at hframe
  cases hhdr : img'.read off headerLen with
  | none => exact Or.inl hhdr
  | some header =>
      have heq := Image.read_of_sub hsub hhdr
      rw [hframe.1] at heq
      cases heq
      have hparsed : (parseHeader (Record.header p)).len = p.length :=
        congrArg Header.len (parseHeader_header (by omega))
      refine Or.inr ⟨_, hhdr, by rw [hparsed]; exact hlen, ?_⟩
      rw [hparsed]
      cases hpay : img'.read (off + headerLen) p.length with
      | none => rfl
      | some data =>
          rw [framedLen, (Image.read_append_iff (header_length p) (Image.read_length hpay)).mpr
            ⟨hhdr, hpay⟩] at hnone
          cases hnone

/-- If bytes of intact records are lost, those before the first record that lost some are
still intact, and the bytes run out behind them. -/
theorem runsOut_of_missing {img' : Image UInt8} {m off : Nat} (hm : m < 2 ^ 32)
    {ps : List (List UInt8)} (hps : Intact img m off ps)
    (hsub : ∀ o, img' o = img o ∨ img' o = none) {o : Nat} (hlo : off ≤ o)
    (hhi : o < off + (frames ps).length) (hmiss : img' o = none) :
    ∃ qs p rs, ps = qs ++ p :: rs ∧ Intact img' m off qs ∧
      RunsOut img' m (off + (frames qs).length) := by
  induction ps generalizing off with
  | nil =>
      rw [frames_nil, List.length_nil] at hhi
      omega
  | cons p ps ih =>
      obtain ⟨hp, hrest⟩ := (intact_cons_iff hm).mp hps
      cases hread : img'.read off (framedLen p.length) with
      | none => exact ⟨[], p, ps, rfl, Intact.nil img' m off, runsOut_of_read_none hm hp hsub hread⟩
      | some bytes =>
          -- All of this record is there, so the missing byte lies behind it.
          obtain ⟨hlen, hframe⟩ := (recordAt_eq_some_iff hm).mp hp
          have heq := Image.read_of_sub hsub hread
          rw [hframe] at heq
          cases heq
          have hp' : recordAt img' m off = some p := (recordAt_eq_some_iff hm).mpr ⟨hlen, hread⟩
          have hbehind : off + framedLen p.length ≤ o := by
            by_contra hin
            have hsome := Image.read_isSome_iff.mp (Option.isSome_iff_exists.mpr ⟨_, hread⟩)
              (o - off) (by omega)
            rw [Nat.add_sub_cancel' hlo, hmiss] at hsome
            cases hsome
          rw [frames_cons, List.length_append, frame_length, ← Nat.add_assoc] at hhi
          obtain ⟨qs, q, rs, rfl, hqs, hout⟩ := ih hrest hbehind hhi
          refine ⟨p :: qs, q, rs, rfl, (intact_cons_iff hm).mpr ⟨hp', hqs⟩, ?_⟩
          rwa [frames_cons, List.length_append, frame_length, ← Nat.add_assoc]

/-- A record of the list, with the records after it. -/
theorem located_suffix {off : Nat} {ps : List (List UInt8)} {before rest : List (Nat × List UInt8)}
    {r : Nat × List UInt8} (h : located off ps = before ++ r :: rest) :
    ∃ qs rs, ps = qs ++ rs ∧ r.1 = off + (frames qs).length ∧ r :: rest = located r.1 rs := by
  induction before generalizing off ps with
  | nil =>
      cases ps with
      | nil => cases h
      | cons p ps =>
          cases h
          exact ⟨[], p :: ps, rfl, rfl, rfl⟩
  | cons b before ih =>
      cases ps with
      | nil => cases h
      | cons p ps =>
          obtain ⟨qs, rs, rfl, hoff, hrest⟩ := ih (List.cons.inj h).2
          refine ⟨p :: qs, rs, rfl, ?_, hrest⟩
          rw [hoff, frames_cons, List.length_append, frame_length, Nat.add_assoc]

/-- Records whose length fields have not changed are still framed. -/
theorem framed_of_lengths {img' : Image UInt8} {m off : Nat} (hm : m < 2 ^ 32)
    {ps : List (List UInt8)} (hps : Intact img m off ps)
    (hthere : (img'.read off (frames ps).length).isSome = true)
    (hlens : ∀ r ∈ located off ps, ∀ i, lenOffset ≤ i → i < headerLen →
      img' (r.1 + i) = img (r.1 + i)) : Framed img' off ps := by
  intro r hr
  obtain ⟨hlo, hhi⟩ := mem_located_bounds hr
  obtain ⟨hfit, hreads⟩ := intact_iff_located.mp hps
  have hr32 : r.2.length < 2 ^ 32 := by
    have hmem : r.2 ∈ ps := located_map_snd off ps ▸ List.mem_map_of_mem hr
    have := hfit _ hmem
    omega
  have hframe := hreads r hr
  rw [frame_eq_header_append, framedLen, Image.read_append_iff (header_length _) rfl] at hframe
  -- Every byte of the record is there.
  have hsome : ∀ i n, i + n ≤ framedLen r.2.length →
      (img'.read (r.1 + i) n).isSome = true := by
    intro i n hle
    rw [Image.read_isSome_iff] at hthere ⊢
    intro j hj
    have := hthere (r.1 - off + i + j) (by omega)
    rwa [show off + (r.1 - off + i + j) = r.1 + i + j by omega] at this
  obtain ⟨header, hhdr⟩ := Option.isSome_iff_exists.mp
    (hsome 0 headerLen (Nat.le_trans (by omega) (Nat.le_add_right headerLen r.2.length)))
  obtain ⟨data, hdata⟩ := Option.isSome_iff_exists.mp
    (hsome headerLen r.2.length (Nat.le_refl _))
  rw [Nat.add_zero] at hhdr
  refine ⟨header, data, hhdr, ?_, hdata⟩
  have hfield : (header.drop 4).take 4 = ((Record.header r.2).drop 4).take 4 := by
    have hnew := Image.read_sub hhdr (show 4 + 4 ≤ headerLen by decide)
    have hold := Image.read_sub hframe.1 (show 4 + 4 ≤ headerLen by decide)
    rw [Image.read_congr fun i hi => ?_, hold] at hnew
    · exact (Option.some.inj hnew).symm
    · have := hlens r hr (4 + i) (Nat.le_add_right 4 i) (by rw [headerLen]; omega)
      rwa [← Nat.add_assoc] at this
  have hparsed := congrArg Header.len (parseHeader_header hr32)
  show ofLe ((header.drop 4).take 4) = _
  rw [hfield]
  exact hparsed

/-- While no length field changes, iteration goes from record to record: one item for each,
which is the bytes now stored where they match the checksum now stored and an error at the
record's LSN where they do not.  `StopAtFirstError` ends after the first error, and an
iterator that starts at a record yields what there is from there on. -/
theorem iter_damaged_payloads {img' : Image UInt8} (V : Serves img' size P) {wal : Wal S}
    (hm : wal.maxRecordSize < 2 ^ 32) (hP : P wal.store) {ps : List (List UInt8)}
    (hps : Intact img wal.maxRecordSize wal.head ps)
    (hend : wal.commit.committed = wal.head + (frames ps).length)
    (hthere : (img'.read wal.head (frames ps).length).isSome = true)
    (hlens : ∀ r ∈ located wal.head ps, ∀ i, lenOffset ≤ i → i < headerLen →
      img' (r.1 + i) = img (r.1 + i)) :
    (wal.recoveryPolicy = .skipBadRecords →
        (wal.iter.collect wal).1 = .ok ((located wal.head ps).map (storedItem img'))) ∧
      (wal.recoveryPolicy = .stopAtFirstError →
        (wal.iter.collect wal).1 =
          .ok (uptoError ((located wal.head ps).map (storedItem img')))) ∧
      ∀ before r rest, located wal.head ps = before ++ r :: rest →
        ((wal.iterFrom r.1).collect wal).1 =
          .ok (shown wal.recoveryPolicy ((r :: rest).map (storedItem img'))) := by
  have hframed := framed_of_lengths hm hps hthere hlens
  obtain ⟨s', hcol, -⟩ := Iter.collect_framed V wal.iter hps.1 hframed rfl hend hP
  refine ⟨fun hpol => ?_, fun hpol => ?_, fun before r rest hsplit => ?_⟩
  · have hshown : wal.iter.policy = .skipBadRecords := hpol
    rw [hcol, shown, if_pos hshown]
    rfl
  · have hshown : wal.iter.policy ≠ .skipBadRecords := by
      show wal.recoveryPolicy ≠ _
      rw [hpol]
      decide
    rw [hcol, shown, if_neg hshown]
    rfl
  · obtain ⟨qs, rs, rfl, hoff, hrest⟩ := located_suffix hsplit
    have hsum : (frames (qs ++ rs)).length = (frames qs).length + (frames rs).length := by
      rw [frames_append, List.length_append]
    have hstart : (wal.iterFrom r.1).offset = r.1 := by
      show min (max r.1 wal.head) wal.commit.committed = r.1
      omega
    have hsub : Framed img' (wal.iterFrom r.1).offset rs := by
      intro q hq
      rw [hstart, hoff] at hq
      exact hframed q (by rw [located_append]; exact List.mem_append_right _ hq)
    obtain ⟨s'', hcol', -⟩ := Iter.collect_framed V (wal.iterFrom r.1)
      (fun p hp => hps.1 p (List.mem_append_right _ hp)) hsub rfl
      (by rw [hstart]; show wal.commit.committed = _; omega) hP
    rw [hcol', hstart, hrest]
    rfl

/-- Three records of which the first has lost its payload and the last its checksum. -/
theorem iter_damaged_payloads_ends :
    let bytes := frames [[1], [2, 3], []]
    ∃ wal : Wal MemStore, wal.store.data = (bytes.set 8 7).set 19 9 ∧
      wal.recoveryPolicy = .skipBadRecords ∧
      (wal.iter.collect wal).1 =
        .ok [.error (.corruption 0 "checksum mismatch"), .ok { lsn := 9, data := [2, 3] },
          .error (.corruption 19 "checksum mismatch")] ∧
      ((wal.iterFrom 9).collect wal).1 =
        .ok [.ok { lsn := 9, data := [2, 3] }, .error (.corruption 19 "checksum mismatch")] := by
  intro bytes
  let wal : Wal MemStore :=
    { tail := 27, store := ⟨(bytes.set 8 7).set 19 9, by decide +kernel⟩
      maxRecordSize := 100, recoveryPolicy := .skipBadRecords, head := 0
      commit := Commit.new 27, truncatedOnOpen := 0 }
  have hps : Intact (Image.ofList bytes) 100 0 [[1], [2, 3], []] :=
    ⟨by decide, by decide +kernel⟩
  obtain ⟨hskip, -, hfrom⟩ := iter_damaged_payloads
    (MemStore.flat.view wal.store).serves (show wal.maxRecordSize < 2 ^ 32 by decide) rfl hps
    (by decide +kernel) (by decide +kernel) (by decide +kernel)
  refine ⟨wal, rfl, rfl, (hskip rfl).trans ?_,
    (hfrom [(0, [1])] (9, [2, 3]) [(19, [])] (by decide)).trans ?_⟩
  · decide +kernel
  · decide +kernel

/-! ## Damage to the lengths -/

namespace Iter

/-- The items of an iterator, and the iterator that has none left. -/
def drain (it : Iter) : Act (Wal S) Fault (List (Except WalError Record) × Iter) := fun wal =>
  match _h : it.next wal with
  | (.ok (none, it'), wal') => (.ok ([], it'), wal')
  | (.error fault, wal') => (.error fault, wal')
  | (.ok (some item, it'), wal') =>
      match it'.drain wal' with
      | (.ok (items, last), wal'') => (.ok (item :: items, last), wal'')
      | (.error fault, wal'') => (.error fault, wal'')
termination_by it.left
decreasing_by exact next_left_lt _h

theorem drain_none {it it' : Iter} {wal wal' : Wal S}
    (h : it.next wal = (.ok (none, it'), wal')) : it.drain wal = (.ok ([], it'), wal') := by
  rw [drain]
  split <;> rename_i heq <;> rw [h] at heq <;> cases heq
  rfl

theorem drain_some {it it' last : Iter} {wal wal' wal'' : Wal S} {item : Except WalError Record}
    {items : List (Except WalError Record)}
    (h : it.next wal = (.ok (some item, it'), wal'))
    (hrest : it'.drain wal' = (.ok (items, last), wal'')) :
    it.drain wal = (.ok (item :: items, last), wal'') := by
  rw [drain]
  split <;> rename_i heq <;> rw [h] at heq <;> cases heq
  rw [hrest]

/-- Records from `off` on lead to a place below `endAt` where the bytes run out. -/
def Strands (img : Image UInt8) (m off endAt : Nat) : Prop :=
  ∃ ps, Intact img m off ps ∧ off + (frames ps).length < endAt ∧
    RunsOut img m (off + (frames ps).length)

theorem strands_nil {m off endAt : Nat} (hlt : off < endAt) (h : RunsOut img m off) :
    Strands img m off endAt := ⟨[], Intact.nil img m off, hlt, h⟩

/-- After a record the rest of the bytes decides. -/
theorem strands_record {m off endAt : Nat} (hm : m < 2 ^ 32) {p : List UInt8}
    (hp : recordAt img m off = some p) :
    Strands img m off endAt ↔ Strands img m (off + framedLen p.length) endAt := by
  have hlen : ∀ ps, off + (frames (p :: ps)).length =
      off + framedLen p.length + (frames ps).length := by
    intro ps
    rw [frames_cons, List.length_append, frame_length, Nat.add_assoc]
  constructor
  · intro ⟨ps, hps, hlt, hout⟩
    cases ps with
    | nil =>
        have hended := look_eq_ended_iff.mpr hout
        rw [frames_nil, List.length_nil, Nat.add_zero, look_record hm hp] at hended
        cases hended
    | cons q ps =>
        obtain ⟨hq, hps⟩ := (intact_cons_iff hm).mp hps
        rw [hp] at hq
        cases hq
        rw [hlen] at hlt hout
        exact ⟨ps, hps, hlt, hout⟩
  · intro ⟨ps, hps, hlt, hout⟩
    rw [← hlen] at hlt hout
    exact ⟨p :: ps, (intact_cons_iff hm).mpr ⟨hp, hps⟩, hlt, hout⟩

/-- Where an error comes first the bytes do not run out. -/
theorem not_strands {m off endAt : Nat} (hm : m < 2 ^ 32) (hp : recordAt img m off = none)
    (hne : look img m off ≠ .ended) : ¬ Strands img m off endAt := by
  intro ⟨ps, hps, _, hout⟩
  cases ps with
  | nil => exact hne (look_eq_ended_iff.mpr hout)
  | cons q ps =>
      obtain ⟨hq, -⟩ := (intact_cons_iff hm).mp hps
      rw [hp] at hq
      cases hq

/-- An iterator is drained, and it stops early without an error exactly where records lead
it to a place at which the bytes run out. -/
theorem drain_spec (B : Bounded img size P) {wal : Wal S} (hm : wal.maxRecordSize < 2 ^ 32)
    (it : Iter) (hdone : it.done = false) (hend : it.endAt < 2 ^ 64) (hP : P wal.store) :
    ∃ items last s', it.drain wal = (.ok (items, last), { wal with store := s' }) ∧ P s' ∧
      ((∀ e, Except.error e ∉ items) ∧ last.offset < it.endAt ↔
        Strands img wal.maxRecordSize it.offset it.endAt) := by
  induction hleft : it.left using Nat.strong_induction_on generalizing it wal with
  | _ n ih =>
      subst hleft
      by_cases hstop : it.endAt ≤ it.offset
      · refine ⟨[], it, wal.store, drain_none (next_stop (Or.inr hstop)), hP, ?_⟩
        refine iff_of_false (fun h => Nat.not_lt.mpr hstop h.2) ?_
        intro ⟨ps, _, hlt, _⟩
        omega
      have hlt := Nat.not_le.mp hstop
      obtain ⟨s1, hstep, hP1⟩ := step_eq_look B (Nat.lt_trans hlt hend) hP
      have hnext := next_of_step hdone hlt hstep
      -- Whatever follows an item is drained the same way.
      have hrest : ∀ item it', it.after (look img wal.maxRecordSize it.offset) = (some item, it') →
          it'.done = false → it'.endAt = it.endAt →
          ∃ items last s', it.drain wal = (.ok (item :: items, last), { wal with store := s' }) ∧
            P s' ∧ ((∀ e, Except.error e ∉ items) ∧ last.offset < it.endAt ↔
              Strands img wal.maxRecordSize it'.offset it.endAt) := by
        intro item it' hafter hdone' hend'
        rw [hafter] at hnext
        obtain ⟨items, last, s2, hdrain, hP2, hiff⟩ := @ih it'.left (next_left_lt hnext)
          { wal with store := s1 } hm it' hdone' (by rw [hend']; exact hend) hP1 rfl
        rw [hend'] at hiff
        exact ⟨items, last, s2, drain_some hnext hdrain, hP2, hiff⟩
      cases hp : recordAt img wal.maxRecordSize it.offset with
      | some p =>
          rw [look_record hm hp] at hrest
          obtain ⟨items, last, s2, hdrain, hP2, hiff⟩ := hrest _ _ rfl hdone rfl
          refine ⟨_, last, s2, hdrain, hP2, ?_⟩
          rw [strands_record hm hp, ← hiff]
          simp
      | none =>
          rcases look_none hp with hended | ⟨detail, next, hdamaged⟩
          · rw [hended] at hnext
            refine ⟨[], _, s1, drain_none hnext, hP1, ?_⟩
            exact iff_of_true ⟨fun _ => List.not_mem_nil, hlt⟩
              (strands_nil hlt (look_eq_ended_iff.mp hended))
          · have hnot : ¬ Strands img wal.maxRecordSize it.offset it.endAt :=
              not_strands hm hp (by rw [hdamaged]; exact nofun)
            generalize WalError.corruption it.offset detail = e at hdamaged
            have hfalse : ∀ items (last : Iter),
                ((∀ e', Except.error e' ∉ (Except.error e :: items :
                    List (Except WalError Record))) ∧ last.offset < it.endAt ↔
                  Strands img wal.maxRecordSize it.offset it.endAt) := fun items last =>
              iff_of_false (fun h => h.1 e List.mem_cons_self) hnot
            rw [hdamaged] at hrest hnext
            by_cases hgo : ∃ n, next = some n ∧ it.policy = .skipBadRecords
            · obtain ⟨n, rfl, hskip⟩ := hgo
              obtain ⟨items, last, s2, hdrain, hP2, -⟩ :=
                hrest (.error e) { it with offset := n } (after_skip hskip e n) hdone rfl
              exact ⟨_, last, s2, hdrain, hP2, hfalse items last⟩
            · rw [after_stop fun n hn hskip => hgo ⟨n, hn, hskip⟩] at hnext
              exact ⟨_, _, s1, drain_some hnext (drain_none (next_stop (Or.inl rfl))), hP1,
                hfalse [] _⟩

end Iter

section Flat

variable {data : S → List UInt8} {headAt : S → Nat}

/-- Whatever the bytes of a flat store have become, an iterator that yields no error has
reached its watermark, exactly where no intact records lead it to an offset below the
watermark at which the store is too short for a header, or for a payload whose length the
header gives within the maximum. -/
theorem iter_reaches_watermark_iff (F : FlatStore S data headAt) {wal : Wal S}
    (hm : wal.maxRecordSize < 2 ^ 32) (hc : wal.commit.committed < 2 ^ 64) :
    ∃ items last, wal.iter.drain wal = (.ok (items, last), wal) ∧
      (((∀ e, Except.error e ∉ items) → wal.commit.committed ≤ last.offset) ↔
        ¬ Iter.Strands (Image.ofList (data wal.store)) wal.maxRecordSize wal.head
          wal.commit.committed) := by
  obtain ⟨items, last, s', hdrain, hs', hiff⟩ :=
    Iter.drain_spec (F.bounded wal.store) hm wal.iter rfl hc rfl
  subst hs'
  refine ⟨items, last, hdrain, ?_⟩
  show _ ↔ ¬ Iter.Strands _ _ wal.iter.offset wal.iter.endAt
  rw [← hiff, not_and, Nat.not_lt]
  rfl

end Flat

/-- A length above the maximum is reported. -/
theorem iter_reaches_watermark_iff_oversized :
    ∃ wal : Wal MemStore, wal.store.data = (frame [1]).set 4 101 ∧ wal.maxRecordSize = 100 ∧
      wal.commit.committed = 9 ∧ ∃ items last, wal.iter.drain wal = (.ok (items, last), wal) ∧
        ((∀ e, Except.error e ∉ items) → 9 ≤ last.offset) := by
  let wal : Wal MemStore :=
    { tail := 9, store := ⟨(frame [1]).set 4 101, by decide +kernel⟩
      maxRecordSize := 100, recoveryPolicy := .skipBadRecords, head := 0
      commit := Commit.new 9, truncatedOnOpen := 0 }
  obtain ⟨items, last, hdrain, hiff⟩ :=
    iter_reaches_watermark_iff MemStore.flat (show wal.maxRecordSize < 2 ^ 32 by decide)
      (show wal.commit.committed < 2 ^ 64 by decide)
  have hnone : recordAt (Image.ofList wal.store.data) 100 0 = none := by decide +kernel
  have hlook : ¬ RunsOut (Image.ofList wal.store.data) 100 0 := by
    rw [← look_eq_ended_iff]
    exact nofun
  exact ⟨wal, rfl, rfl, rfl, items, last, hdrain,
    hiff.mpr (Iter.not_strands (by decide) hnone fun h => hlook (look_eq_ended_iff.mp h))⟩

/-- One record, whose length has been changed from 1 to 5: the iterator stops at it and
yields nothing. -/
theorem iter_stops_without_error :
    ∃ (wal0 wal : Wal MemStore) (changed : MemStore) (last : Iter) (wal' : Wal MemStore),
      (Wal.withStoreAndConfig WalConfig.new (⟨[], by decide⟩ : MemStore)).1 = .ok wal0 ∧
      wal0.append [1] = (.ok 0, wal) ∧ changed.data = wal.store.data.set 4 5 ∧
      wal.iter.drain { wal with store := changed } = (.ok ([], last), wal') ∧
      last.offset < wal.commit.committed := by
  have hobs : ((Wal.withStoreAndConfig WalConfig.new
        (⟨[], by decide⟩ : MemStore)).1.toOption.bind fun wal0 =>
      (wal0.append [1]).1.toOption.map fun lsn =>
        let wal := (wal0.append [1]).2
        (lsn, decide (wal.store.data = frame [1]), wal.commit.committed,
          (wal.iter.next { wal with
            store := (⟨(frame [1]).set 4 5, by decide +kernel⟩ : MemStore) }).1.toOption.map fun r =>
              (r.1.isNone, r.2.offset))) = some (0, true, 9, some (true, 0)) := by
    decide +kernel
  obtain ⟨wal0, hopen, hobs⟩ := Option.bind_eq_some_iff.mp hobs
  obtain ⟨lsn, happ, hobs⟩ := Option.map_eq_some_iff.mp hobs
  simp only [Prod.mk.injEq, decide_eq_true_eq, Option.map_eq_some_iff] at hobs
  obtain ⟨rfl, hdata, hcommitted, ⟨item, last⟩, hnext, hitem, hoff⟩ := hobs
  rw [Option.isNone_iff_eq_none] at hitem
  subst hitem
  exact ⟨wal0, _, _, last, _, Act.eq_ok_of_toOption hopen,
    Prod.ext (Act.eq_ok_of_toOption happ) rfl, congrArg (·.set 4 5) hdata.symm,
    Iter.drain_none (Prod.ext (Act.eq_ok_of_toOption hnext) rfl), by
      rw [hcommitted, hoff]
      decide⟩

end Wal
end WalDb
