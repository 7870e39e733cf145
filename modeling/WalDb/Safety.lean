/-
Opening and iterating a store that holds anything.

Nothing is assumed about what the store holds, how long it says it is, or whether it gives
the same answer twice; only that it answers, and never with more bytes than it was asked
for.  It need not even answer everything: `Tame asks P` promises an answer for the reads
that `asks` allows, so a program that is safe over every such store asks for nothing else.
In this way the bounds on offsets and buffers are part of the statements.

The open scan and the iterator check every sum.  The strict check does not: its
subtractions are safe because the window ends between the offset that is tried and the end
of the store, across every refill (`Window.Spans`).
-/
import WalDb.Lib.Ends
import WalDb.Wal

namespace WalDb

open Lib Record

/-- An error that is returned, not a panic. -/
def Reported {σ : Type} (P : σ → Prop) (fault : Fault) (s : σ) : Prop :=
  fault.Returned ∧ P s

/-- The computation does not panic; its result satisfies `Q`, and `P` holds afterwards. -/
abbrev Safe {σ α : Type} (P : σ → Prop) (x : Act σ Fault α) (s : σ) (Q : α → Prop) : Prop :=
  x.Ends s (fun a s' => Q a ∧ P s') (Reported P)

/-- A store that answers every read that `asks` allows. -/
structure TameReads {S : Type} [WalStore S] (asks : Nat → Nat → Prop) (P : S → Prop) : Prop where
  read : ∀ {s : S} {off n : Nat}, P s → asks off n →
    Safe P (WalStore.readAt off n) s fun bs => bs.length ≤ n

/-- One that answers every other call as well. -/
structure Tame {S : Type} [WalStore S] (asks : Nat → Nat → Prop) (P : S → Prop) : Prop
    extends TameReads asks P where
  truncate : ∀ {s : S} (len : Nat), P s → Safe P (WalStore.truncate len) s fun _ => True
  len : ∀ {s : S}, P s → Safe P WalStore.len s (· < 2 ^ 64)
  head : ∀ {s : S}, P s → Safe P WalStore.head s (· < 2 ^ 64)

theorem Tame.mono {S : Type} [WalStore S] {asks asks' : Nat → Nat → Prop} {P : S → Prop}
    (h : Tame asks' P) (hsub : ∀ off n, asks off n → asks' off n) : Tame asks P where
  read hP hask := h.read hP (hsub _ _ hask)
  truncate := h.truncate
  len := h.len
  head := h.head

section Checked

variable {σ : Type} {P : σ → Prop} {s : σ}

theorem subChecked_safe {a b : Nat} (h : b ≤ a) (hP : P s) :
    Safe P (subChecked a b) s (· = a - b) :=
  Act.ends_of_ok (subChecked_ok h s) ⟨rfl, hP⟩

theorem addChecked_safe {a b : Nat} (h : a + b < 2 ^ 64) (hP : P s) :
    Safe P (addChecked a b) s (· = a + b) :=
  Act.ends_of_ok (addChecked_ok h s) ⟨rfl, hP⟩

theorem sliceChecked_safe {bytes : List UInt8} {lo hi : Nat} (h : lo ≤ hi)
    (hle : hi ≤ bytes.length) (hP : P s) :
    Safe P (sliceChecked bytes lo hi) s fun bs => bs.length = hi - lo := by
  refine Act.ends_of_ok (sliceChecked_ok h hle s) ⟨?_, hP⟩
  show (List.take _ _).length = _
  rw [List.length_take, List.length_drop]
  omega

theorem getChecked_safe {α : Type} {xs : List α} {i : Nat} (h : i < xs.length) (hP : P s) :
    Safe P (getChecked xs i) s fun _ => True :=
  Act.ends_of_ok (getChecked_ok h (xs.get ⟨i, h⟩) s) ⟨trivial, hP⟩

end Checked

variable {S : Type} [WalStore S] {P : S → Prop} {s : S} {m limit : Nat}

/-! ## The strict check -/

namespace Strict

/-- What the strict check may read: at most a window, below the end of the store. -/
def MayRead (limit off n : Nat) : Prop := n ≤ windowLen ∧ off + n ≤ limit

/-- The window ends between `pos` and `limit`. -/
structure Window.Spans (w : Window) (pos limit : Nat) : Prop where
  start_le : w.start ≤ pos
  le_end : pos ≤ w.start + w.bytes.length
  end_le : w.start + w.bytes.length ≤ limit

section Window

variable {σ : Type} {P : σ → Prop} {s : σ} {w : Window} {pos : Nat}

theorem Window.endAt_safe (hend : w.start + w.bytes.length ≤ limit) (hlim : limit < 2 ^ 64)
    (hP : P s) : Safe P w.endAt s (· = w.start + w.bytes.length) :=
  addChecked_safe (Nat.lt_of_le_of_lt hend hlim) hP

/-- A window that covers `pos` holds the header there. -/
theorem Window.covers_safe (hw : w.Spans pos limit) (hlim : limit < 2 ^ 64)
    (hroom : pos + headerLen ≤ limit) (hP : P s) :
    Safe P (w.covers pos limit) s fun covered =>
      covered = true → pos + headerLen ≤ w.start + w.bytes.length := by
  rw [covers, if_neg (Nat.not_lt.mpr hw.start_le)]
  refine (endAt_safe hw.end_le hlim hP).bind ?_
  rintro e s1 ⟨rfl, hP1⟩
  by_cases hend : limit ≤ w.start + w.bytes.length
  · rw [if_pos hend]
    exact Act.ends_pure ⟨fun _ => by omega, hP1⟩
  · rw [if_neg hend]
    refine (subChecked_safe hw.le_end hP1).bind ?_
    rintro ahead s2 ⟨rfl, hP2⟩
    refine Act.ends_pure ⟨fun hhalf => ?_, hP2⟩
    have := of_decide_eq_true hhalf
    unfold windowLen at this
    unfold headerLen
    omega

theorem Window.header_safe (hlo : w.start ≤ pos)
    (hhi : pos + headerLen ≤ w.start + w.bytes.length) (hP : P s) :
    Safe P (w.header pos) s fun header => header.length = headerLen := by
  refine (subChecked_safe hlo hP).bind ?_
  rintro lo s1 ⟨rfl, hP1⟩
  refine (sliceChecked_safe (Nat.le_add_right _ _) (by omega) hP1).mono ?_ fun _ _ h => h
  rintro header s2 ⟨hlen, hP2⟩
  exact ⟨by omega, hP2⟩

theorem Window.slice_safe (hend : w.start + w.bytes.length ≤ limit) (hlim : limit < 2 ^ 64)
    {lo hi : Nat} (hle : lo ≤ hi) (hP : P s) : Safe P (w.slice lo hi) s fun _ => True := by
  unfold slice
  by_cases hlo : lo < w.start
  · rw [if_pos hlo]
    exact Act.ends_pure ⟨trivial, hP⟩
  rw [if_neg hlo]
  refine (endAt_safe hend hlim hP).bind ?_
  rintro e s1 ⟨rfl, hP1⟩
  by_cases hhi : w.start + w.bytes.length < hi
  · rw [if_pos hhi]
    exact Act.ends_pure ⟨trivial, hP1⟩
  rw [if_neg hhi]
  refine (subChecked_safe (Nat.not_lt.mp hlo) hP1).bind ?_
  rintro a s2 ⟨rfl, hP2⟩
  refine (subChecked_safe (show w.start ≤ hi by omega) hP2).bind ?_
  rintro b s3 ⟨rfl, hP3⟩
  refine (sliceChecked_safe (by omega) (by omega) hP3).bind ?_
  rintro bytes s4 ⟨-, hP4⟩
  exact Act.ends_pure ⟨trivial, hP4⟩

end Window

theorem Window.fill_safe (T : TameReads (MayRead limit) P) {pos : Nat} (hpos : pos ≤ limit) (hP : P s) :
    Safe P (Window.fill pos limit) s fun r =>
      r.2 = true → r.1.start = pos ∧ r.1.bytes.length = min (limit - pos) windowLen := by
  refine (subChecked_safe hpos hP).bind ?_
  rintro left s1 ⟨rfl, hP1⟩
  refine (T.read hP1 ⟨Nat.min_le_right _ _, by omega⟩).bind ?_
  rintro bytes s2 ⟨-, hP2⟩
  exact Act.ends_pure ⟨fun hwhole => ⟨rfl, by simpa using hwhole⟩, hP2⟩

/-- The window is ready for `pos` if it holds the header there. -/
theorem Window.ready_safe (T : TameReads (MayRead limit) P) (hlim : limit < 2 ^ 64) {w : Window}
    {pos : Nat} (hw : w.Spans pos limit) (hroom : pos + headerLen ≤ limit) (hP : P s) :
    Safe P (w.ready pos limit) s fun r =>
      r.2 = true → r.1.Spans pos limit ∧ pos + headerLen ≤ r.1.start + r.1.bytes.length := by
  refine (covers_safe hw hlim hroom hP).bind ?_
  rintro covered s1 ⟨hcov, hP1⟩
  cases covered with
  | true => exact Act.ends_pure ⟨fun _ => ⟨hw, hcov rfl⟩, hP1⟩
  | false =>
      refine (fill_safe T (by omega) hP1).mono ?_ fun _ _ h => h
      rintro ⟨w', whole⟩ s2 ⟨hfill, hP2⟩
      refine ⟨fun hwhole => ?_, hP2⟩
      obtain ⟨hstart, hlen⟩ := hfill hwhole
      dsimp only at hstart hlen ⊢
      unfold headerLen windowLen at *
      exact ⟨⟨by omega, by omega, by omega⟩, by omega⟩

/-! ### The prefix checksums -/

theorem extend_safe (T : TameReads (MayRead limit) P) (crc : BitVec 32) {lo len : Nat}
    (hlen : len ≤ markInterval) (hend : lo + len ≤ limit) (hP : P s) :
    Safe P (Prefix.extend crc lo len) s fun _ => True := by
  refine (T.read hP ⟨Nat.le_trans hlen (by decide), hend⟩).bind ?_
  rintro scratch s1 ⟨-, hP1⟩
  split
  · exact Act.ends_pure ⟨trivial, hP1⟩
  · exact Act.ends_pure ⟨trivial, hP1⟩

/-- There is always a last mark to go on from, and the one asked for in the end. -/
theorem pushMarks_safe (T : TameReads (MayRead limit) P) (hlim : limit < 2 ^ 64) {base index : Nat}
    (hfit : base + index * markInterval ≤ limit) {marks : List (BitVec 32)}
    (hmarks : 0 < marks.length) (hP : P s) :
    Safe P (Prefix.pushMarks base index marks) s fun r =>
      ∀ marks', r = some marks' → index < marks'.length := by
  -- Each round adds one mark, up to index + 1 of them.
  induction hn : index + 1 - marks.length generalizing marks s with
  | zero =>
      rw [Prefix.pushMarks, if_neg (by omega)]
      refine Act.ends_pure ⟨fun marks' h => ?_, hP⟩
      cases h
      omega
  | succ n ih =>
      have hlast : (marks.length - 1) * markInterval + markInterval ≤ index * markInterval := by
        rw [← Nat.succ_mul]
        exact Nat.mul_le_mul_right _ (by omega)
      rw [Prefix.pushMarks, if_pos (by omega)]
      refine (subChecked_safe (show 1 ≤ marks.length from hmarks) hP).bind ?_
      rintro last s1 ⟨rfl, hP1⟩
      refine (getChecked_safe (show marks.length - 1 < marks.length by omega) hP1).bind ?_
      rintro seed s2 ⟨-, hP2⟩
      refine (addChecked_safe (by omega) hP2).bind ?_
      rintro lo s3 ⟨rfl, hP3⟩
      refine (extend_safe T seed (Nat.le_refl _) (by omega) hP3).bind ?_
      rintro r s4 ⟨-, hP4⟩
      cases r with
      | none => exact Act.ends_pure ⟨nofun, hP4⟩
      | some crc =>
          exact ih (by rw [List.length_append]; omega) hP4
            (by rw [List.length_append, List.length_singleton]; omega)

theorem upTo_safe (T : TameReads (MayRead limit) P) (hlim : limit < 2 ^ 64) {p : Prefix}
    (hmarks : 0 < p.marks.length) {pos : Nat} (hlo : p.base ≤ pos) (hhi : pos ≤ limit) (hP : P s) :
    Safe P (p.upTo pos) s fun r =>
      ∀ crc p', r = some (crc, p') → p'.base = p.base ∧ 0 < p'.marks.length := by
  have hfloor : (pos - p.base) / markInterval * markInterval ≤ pos - p.base :=
    Nat.div_mul_le_self _ _
  have hrest : pos - (p.base + (pos - p.base) / markInterval * markInterval) ≤ markInterval := by
    have := Nat.lt_div_mul_add (a := pos - p.base) (show 0 < markInterval by decide)
    omega
  refine (subChecked_safe hlo hP).bind ?_
  rintro d s1 ⟨rfl, hP1⟩
  refine (pushMarks_safe T hlim (by omega) hmarks hP1).bind ?_
  rintro r s2 ⟨hindex, hP2⟩
  cases r with
  | none => exact Act.ends_pure ⟨nofun, hP2⟩
  | some marks =>
      have hlt := hindex marks rfl
      refine (addChecked_safe (by omega) hP2).bind ?_
      rintro lo s3 ⟨rfl, hP3⟩
      refine (getChecked_safe hlt hP3).bind ?_
      rintro seed s4 ⟨-, hP4⟩
      refine (subChecked_safe (by omega) hP4).bind ?_
      rintro rest s5 ⟨rfl, hP5⟩
      refine (extend_safe T seed hrest (by omega) hP5).bind ?_
      rintro r s6 ⟨-, hP6⟩
      cases r with
      | none => exact Act.ends_pure ⟨nofun, hP6⟩
      | some crc =>
          refine Act.ends_pure ⟨fun crc' p' h => ?_, hP6⟩
          cases h
          exact ⟨rfl, Nat.lt_of_le_of_lt (Nat.zero_le _) hlt⟩

theorem span_safe (T : TameReads (MayRead limit) P) (hlim : limit < 2 ^ 64) {p : Prefix}
    (hmarks : 0 < p.marks.length) {lo hi : Nat} (hbase : p.base ≤ lo) (hle : lo ≤ hi)
    (hhi : hi ≤ limit) (hP : P s) :
    Safe P (p.span lo hi) s fun r =>
      ∀ crc p', r = some (crc, p') → p'.base = p.base ∧ 0 < p'.marks.length := by
  refine (upTo_safe T hlim hmarks hbase (Nat.le_trans hle hhi) hP).bind ?_
  rintro r s1 ⟨hfirst, hP1⟩
  cases r with
  | none => exact Act.ends_pure ⟨nofun, hP1⟩
  | some first =>
      obtain ⟨before, p1⟩ := first
      obtain ⟨hb1, hm1⟩ := hfirst before p1 rfl
      refine (upTo_safe T hlim hm1 (by omega) hhi hP1).bind ?_
      rintro r s2 ⟨hsecond, hP2⟩
      cases r with
      | none => exact Act.ends_pure ⟨nofun, hP2⟩
      | some second =>
          obtain ⟨through, p2⟩ := second
          obtain ⟨hb2, hm2⟩ := hsecond through p2 rfl
          refine (subChecked_safe hle hP2).bind ?_
          rintro len s3 ⟨rfl, hP3⟩
          refine Act.ends_pure ⟨fun crc p' h => ?_, hP3⟩
          cases h
          exact ⟨hb2.trans hb1, hm2⟩

/-! ### The scan -/

theorem candidate_safe (T : TameReads (MayRead limit) P) (hlim : limit < 2 ^ 64) {w : Window}
    (hend : w.start + w.bytes.length ≤ limit) {p : Prefix} (hmarks : 0 < p.marks.length)
    {pos : Nat} (hbase : p.base ≤ pos) (hroom : pos + headerLen ≤ limit) (header : List UInt8)
    (hP : P s) :
    Safe P (candidate m limit w p pos header) s fun r =>
      ∀ intact p', r = some (intact, p') → p'.base = p.base ∧ 0 < p'.marks.length := by
  have h48 : lenOffset ≤ headerLen := by decide
  unfold candidate
  refine (subChecked_safe (show pos ≤ limit by omega) hP).bind ?_
  rintro left s1 ⟨rfl, hP1⟩
  refine (subChecked_safe (show headerLen ≤ limit - pos by omega) hP1).bind ?_
  rintro room s2 ⟨rfl, hP2⟩
  by_cases hplaus : (parseHeader header).len ≤ m ∧
      (parseHeader header).len ≤ limit - pos - headerLen
  · rw [if_pos hplaus]
    obtain ⟨-, hfit⟩ := hplaus
    refine (addChecked_safe (by omega) hP2).bind ?_
    rintro payloadStart s3 ⟨rfl, hP3⟩
    refine (addChecked_safe (by omega) hP3).bind ?_
    rintro recordEnd s4 ⟨rfl, hP4⟩
    refine (Window.slice_safe hend hlim (Nat.le_add_right _ _) hP4).bind ?_
    rintro payload s5 ⟨-, hP5⟩
    cases payload with
    | some payload =>
        refine Act.ends_pure ⟨fun intact p' h => ?_, hP5⟩
        cases h
        exact ⟨rfl, hmarks⟩
    | none =>
        refine (span_safe T hlim hmarks (show p.base ≤ pos + lenOffset by omega) (by omega)
          (by omega) hP5).bind ?_
        rintro r s6 ⟨hspan, hP6⟩
        cases r with
        | none => exact Act.ends_pure ⟨nofun, hP6⟩
        | some found =>
            obtain ⟨crc, p1⟩ := found
            refine Act.ends_pure ⟨fun intact p' h => ?_, hP6⟩
            cases h
            exact hspan crc p1 rfl
  · rw [if_neg hplaus]
    refine Act.ends_pure ⟨fun intact p' h => ?_, hP2⟩
    cases h
    exact ⟨rfl, hmarks⟩

theorem classifyFrom_safe (T : TameReads (MayRead limit) P) (hlim : limit < 2 ^ 64) {w : Window}
    {p : Prefix} (hmarks : 0 < p.marks.length) {pos : Nat} (hbase : p.base ≤ pos)
    (hw : pos ≤ limit → w.Spans pos limit) (hP : P s) :
    Safe P (classifyFrom m limit w p pos) s fun _ => True := by
  -- One offset a round, until no header fits.
  induction hn : limit - pos generalizing w p pos s with
  | zero =>
      rw [classifyFrom, if_neg (by unfold headerLen; omega)]
      exact Act.ends_pure ⟨trivial, hP⟩
  | succ n ih =>
      rw [classifyFrom]
      by_cases hroom : headerLen ≤ limit - pos
      · rw [if_pos hroom]
        refine (Window.ready_safe T hlim (hw (by omega)) (by omega) hP).bind ?_
        rintro ⟨w', whole⟩ s1 ⟨hready, hP1⟩
        cases whole with
        | false => exact Act.ends_pure ⟨trivial, hP1⟩
        | true =>
            obtain ⟨hspans, hheader⟩ : w'.Spans pos limit ∧
                pos + headerLen ≤ w'.start + w'.bytes.length := hready rfl
            simp only [Bool.true_eq_false, if_false]
            refine (Window.header_safe hspans.start_le hheader hP1).bind ?_
            rintro header s2 ⟨-, hP2⟩
            refine (candidate_safe T hlim hspans.end_le hmarks hbase (by omega) header hP2).bind ?_
            rintro r s3 ⟨hcand, hP3⟩
            cases r with
            | none => exact Act.ends_pure ⟨trivial, hP3⟩
            | some found =>
                obtain ⟨intact, p'⟩ := found
                obtain ⟨hb, hm'⟩ := hcand intact p' rfl
                cases intact with
                | true => exact Act.ends_pure ⟨trivial, hP3⟩
                | false =>
                    refine (addChecked_safe (by omega) hP3).bind ?_
                    rintro next s4 ⟨-, hP4⟩
                    have h8 : headerLen = 8 := rfl
                    exact ih hm' (by omega) (fun _ => ⟨Nat.le_succ_of_le hspans.start_le,
                      by omega, hspans.end_le⟩) hP4 (by omega)
      · rw [if_neg hroom]
        exact Act.ends_pure ⟨trivial, hP⟩

theorem streamCrc_safe (T : TameReads (MayRead limit) P) (hlim : limit < 2 ^ 64) (crc : BitVec 32)
    {lo recordEnd : Nat} (hend : recordEnd ≤ limit) (hP : P s) :
    Safe P (streamCrc crc lo recordEnd) s fun _ => True := by
  induction hn : recordEnd - lo using Nat.strongRecOn generalizing lo crc s with
  | ind n ih =>
      rw [streamCrc]
      by_cases hlt : lo < recordEnd
      · have hpos : 0 < min (recordEnd - lo) markInterval := by
          unfold markInterval
          omega
        have hwin : markInterval ≤ windowLen := by decide
        rw [if_pos hlt]
        refine (T.read hP ⟨by omega, by omega⟩).bind ?_
        rintro buf s1 ⟨-, hP1⟩
        split
        · exact Act.ends_pure ⟨trivial, hP1⟩
        · refine (addChecked_safe (by omega) hP1).bind ?_
          rintro next s2 ⟨-, hP2⟩
          exact ih _ (by omega) _ hP2 rfl
      · rw [if_neg hlt]
        exact Act.ends_pure ⟨trivial, hP⟩

theorem oversized_safe (T : TameReads (MayRead limit) P) (hlim : limit < 2 ^ 64) {pos : Nat} (hP : P s) :
    Safe P (oversized m pos limit) s fun _ => True := by
  unfold oversized
  by_cases hroom : limit - pos < headerLen
  · rw [if_pos hroom]
    exact Act.ends_pure ⟨trivial, hP⟩
  have h8 : headerLen = 8 := rfl
  rw [if_neg hroom]
  refine (T.read hP ⟨by decide, by omega⟩).bind ?_
  rintro header s1 ⟨-, hP1⟩
  split
  · exact Act.ends_pure ⟨trivial, hP1⟩
  refine (addChecked_safe (show pos + headerLen < 2 ^ 64 by omega) hP1).bind ?_
  rintro payloadStart s2 ⟨rfl, hP2⟩
  split
  · exact Act.ends_pure ⟨trivial, hP2⟩
  refine (subChecked_safe (show pos + headerLen ≤ limit by omega) hP2).bind ?_
  rintro room s3 ⟨rfl, hP3⟩
  by_cases hlong : limit - (pos + headerLen) < (parseHeader header).len
  · rw [if_pos hlong]
    exact Act.ends_pure ⟨trivial, hP3⟩
  rw [if_neg hlong]
  refine (addChecked_safe (by omega) hP3).bind ?_
  rintro recordEnd s4 ⟨rfl, hP4⟩
  refine (streamCrc_safe T hlim _ (by omega) hP4).bind ?_
  rintro r s5 ⟨-, hP5⟩
  cases r <;> exact Act.ends_pure ⟨trivial, hP5⟩

/-- The strict check reads at most a window at a time, below the end of the store, and does
not panic. -/
theorem classify_safe (T : TameReads (MayRead limit) P) (hlim : limit < 2 ^ 64) {damaged : Nat}
    (hP : P s) : Safe P (classify m damaged limit) s fun _ => True := by
  refine (oversized_safe T hlim hP).bind ?_
  rintro r s1 ⟨-, hP1⟩
  cases r with
  | some tail => exact Act.ends_pure ⟨trivial, hP1⟩
  | none =>
      simp only
      cases hnext : checkedAdd damaged 1 with
      | none => exact Act.ends_pure ⟨trivial, hP1⟩
      | some first =>
          refine classifyFrom_safe T hlim
            (show 0 < (Prefix.new first).marks.length from Nat.one_pos) (Nat.le_refl _)
            (fun hle => ?_) hP1
          exact ⟨Nat.le_refl _, Nat.le_refl _, hle⟩

end Strict

/-! ## The open scan -/

/-- A store that answers the read of a header, and right behind a header that it has just
given the read of at most `m` bytes, and no other read.  In a state of `Q off` the header at
`off` was the last to be read. -/
structure TakesTurns (m : Nat) (P : S → Prop) (Q : Nat → S → Prop) : Prop where
  header : ∀ {s : S} {off : Nat}, P s → off < 2 ^ 64 →
    (WalStore.readAt off headerLen).Ends s (fun bs s' => bs.length ≤ headerLen ∧ Q off s')
      (Reported P)
  payload : ∀ {s : S} {off n : Nat}, Q off s → off + headerLen < 2 ^ 64 → n ≤ m →
    Safe P (WalStore.readAt (off + headerLen) n) s fun bs => bs.length ≤ n

/-- Between two reads. -/
def Between (P : S → Prop) (Q : Nat → S → Prop) (s : S) : Prop := P s ∨ ∃ off, Q off s

omit [WalStore S] in
theorem between_of_turn {Q : Nat → S → Prop} {off : Nat} (h : Q off s) : Between P Q s :=
  Or.inr ⟨off, h⟩

omit [WalStore S] in
theorem between_self (h : Between P (fun _ => P) s) : P s := by
  rcases h with h | ⟨_, h⟩
  · exact h
  · exact h

/-- The scan reads a header, and then the payload that it announces if that is no longer than
the largest record.  Only where a record was found it goes on to the next header. -/
theorem scanStep_turns {Q : Nat → S → Prop} (T : TakesTurns m P Q) {off : Nat} (hoff : off < 2 ^ 64)
    (hP : P s) :
    (scanStep m off).Ends s
      (fun r s' => Between P Q s' ∧ ∀ next, r = some next → next < 2 ^ 64 ∧ P s')
      (Reported (Between P Q)) := by
  refine ((T.header hP hoff).mono (fun _ _ h => h) fun _ _ h => ⟨h.1, Or.inl h.2⟩).bind ?_
  rintro header s1 ⟨-, hQ⟩
  have hstop : Between P Q s1 := between_of_turn hQ
  by_cases hshort : header.length < headerLen
  · rw [if_pos hshort]
    exact Act.ends_pure ⟨hstop, nofun⟩
  rw [if_neg hshort]
  by_cases hbig : m < (parseHeader header).len
  · rw [if_pos hbig]
    exact Act.ends_pure ⟨hstop, nofun⟩
  rw [if_neg hbig]
  cases hstart : checkedAdd off headerLen with
  | none => exact Act.ends_pure ⟨hstop, nofun⟩
  | some payloadStart =>
      obtain ⟨rfl, hlt⟩ := checkedAdd_eq_some hstart
      refine ((T.payload hQ hlt (by omega)).mono (fun _ _ h => h)
        fun _ _ h => ⟨h.1, Or.inl h.2⟩).bind ?_
      rintro payload s2 ⟨-, hP2⟩
      split
      · exact Act.ends_pure ⟨Or.inl hP2, nofun⟩
      split
      · exact Act.ends_pure ⟨Or.inl hP2, nofun⟩
      refine Act.ends_pure ⟨Or.inl hP2, fun next hnext => ?_⟩
      obtain ⟨rfl, hend⟩ := checkedAdd_eq_some hnext
      exact ⟨hend, hP2⟩

theorem scan_turns {Q : Nat → S → Prop} (T : TakesTurns m P Q) (physical : Nat) {off : Nat}
    (hoff : off < 2 ^ 64) (hP : P s) : Safe (Between P Q) (scan m physical off) s (· < 2 ^ 64) := by
  -- Whatever the store returned, a round that goes on has moved forward.
  induction hn : physical - off using Nat.strongRecOn generalizing off s with
  | ind n ih =>
      by_cases hlt : off < physical
      · rcases (scanStep_turns T hoff hP).cases with ⟨r, s1, hstep, hB, hnext⟩ | ⟨e, s1, hstep, he⟩
        · cases r with
          | none => exact Act.ends_of_ok (scan_break hlt hstep) ⟨hoff, hB⟩
          | some next =>
              have hgt := scanStep_gt hstep
              obtain ⟨hnext, hP1⟩ := hnext next rfl
              rw [Safe, Act.Ends, scan_next hlt hstep]
              exact ih _ (by omega) hnext hP1 rfl
        · exact Act.ends_of_error (scan_error hlt hstep) he
      · exact Act.ends_of_ok (scan_past hlt s) ⟨hoff, Or.inl hP⟩

/-- A header, or a payload of at most the largest record. -/
def PayloadRead (m off n : Nat) : Prop := off < 2 ^ 64 ∧ (n = headerLen ∨ n ≤ m)

theorem Tame.takesTurns (T : Tame (PayloadRead m) P) : TakesTurns m P fun _ => P where
  header hP hoff := T.read hP ⟨hoff, Or.inl rfl⟩
  payload hP hlt hn := T.read hP ⟨hlt, Or.inr hn⟩

theorem scan_safe (T : Tame (PayloadRead m) P) (physical : Nat) {off : Nat} (hoff : off < 2 ^ 64)
    (hP : P s) : Safe P (scan m physical off) s (· < 2 ^ 64) :=
  (scan_turns T.takesTurns physical hoff hP).mono (fun _ _ h => ⟨h.1, between_self h.2⟩)
    fun _ _ h => ⟨h.1, between_self h.2⟩

/-- What opening may read: what the scan may, and under the strict policy what the strict
check may. -/
def OpenRead (config : WalConfig) (off n : Nat) : Prop :=
  PayloadRead config.maxRecordSize off n ∨
    (config.openPolicy = .strict ∧ n ≤ Strict.windowLen ∧ off + n < 2 ^ 64)

theorem cutTail_safe {config : WalConfig} (T : Tame (OpenRead config) P) {offset physical : Nat}
    (hlen : physical < 2 ^ 64) (hP : P s) :
    Safe P (cutTail config offset physical) s fun _ => True := by
  unfold cutTail
  by_cases hstrict : config.openPolicy = .strict
  · rw [if_pos hstrict]
    have hT : Tame (Strict.MayRead physical) P :=
      T.mono fun off n h => Or.inr ⟨hstrict, h.1, Nat.lt_of_le_of_lt h.2 hlen⟩
    refine (Strict.classify_safe hT.toTameReads hlen hP).bind ?_
    rintro tail s1 ⟨-, hP1⟩
    cases tail with
    | torn => exact T.truncate offset hP1
    | intactAfter => exact Act.ends_fail ⟨⟨_, rfl⟩, hP1⟩
    | unreadable => exact Act.ends_fail ⟨⟨_, rfl⟩, hP1⟩
    | oversized => exact Act.ends_fail ⟨⟨_, rfl⟩, hP1⟩
  · rw [if_neg hstrict]
    exact T.truncate offset hP

theorem recover_safe {config : WalConfig} (T : Tame (OpenRead config) P) {head : Nat}
    (hhead : head < 2 ^ 64) (hP : P s) : Safe P (recover config head) s fun _ => True := by
  refine (T.len hP).bind ?_
  rintro physical s1 ⟨hlen, hP1⟩
  refine (scan_safe (T.mono fun _ _ h => Or.inl h) physical hhead hP1).bind ?_
  rintro offset s2 ⟨-, hP2⟩
  split
  · refine (cutTail_safe T hlen hP2).bind ?_
    rintro _ s3 ⟨-, hP3⟩
    exact Act.ends_pure ⟨trivial, hP3⟩
  · exact Act.ends_pure ⟨trivial, hP2⟩

/-! ## The iterator -/

/-- A store that loses bytes still answers. -/
theorem SparseStore.tame (asks : Nat → Nat → Prop) : Tame asks fun _ : SparseStore => True where
  read {s off n} _ _ := by
    refine Act.ends_of_ok rfl ⟨?_, trivial⟩
    show (readable ((s.data.drop off).take n)).length ≤ n
    exact Nat.le_trans (readable_length_le _) (List.length_take_le _ _)
  truncate _ _ := Act.ends_of_ok rfl ⟨trivial, trivial⟩
  len {s} _ := Act.ends_of_ok rfl ⟨Nat.lt_trans s.data_lt (by decide), trivial⟩
  head _ := Act.ends_of_ok rfl ⟨by decide, trivial⟩

/-- A store that answers a header and then a payload of at most 4 bytes, and panics otherwise. -/
structure TurnStore where
  data : List UInt8
  lastHeader : Option Nat

namespace TurnStore

def readAt (off n : Nat) : Act TurnStore Fault (List UInt8) := fun s =>
  match s.lastHeader with
  | none =>
      if n = headerLen then (.ok ((s.data.drop off).take n), { s with lastHeader := some off })
      else (.error (.panics "not a header"), s)
  | some header =>
      if off = header + headerLen ∧ n ≤ 4 then
        (.ok ((s.data.drop off).take n), { s with lastHeader := none })
      else (.error (.panics "not a payload"), s)

instance : WalStore TurnStore where
  writeAt := fun _ _ => Act.fail (.panics "read-only")
  readAt := readAt
  truncate := fun _ => Act.fail (.panics "read-only")
  sync := pure ()
  len := fun s => (.ok s.data.length, s)

def Idle (s : TurnStore) : Prop := s.lastHeader = none

def Behind (off : Nat) (s : TurnStore) : Prop := s.lastHeader = some off

theorem takesTurns : TakesTurns 4 Idle Behind where
  header {s off} hP _ := by
    have hrun : readAt off headerLen s =
        (.ok ((s.data.drop off).take headerLen), { s with lastHeader := some off }) := by
      rw [readAt, hP]
      rfl
    exact Act.ends_of_ok hrun ⟨List.length_take_le _ _, rfl⟩
  payload {s off n} hQ _ hn := by
    have hrun : readAt (off + headerLen) n s =
        (.ok ((s.data.drop (off + headerLen)).take n), { s with lastHeader := none }) := by
      rw [readAt, hQ]
      exact if_pos ⟨rfl, hn⟩
    exact Act.ends_of_ok hrun ⟨List.length_take_le _ _, rfl⟩

end TurnStore

namespace Wal
namespace Iter

variable {it : Iter} {wal : Wal S}

/-- The log's store is in `P`, and its size limit is `m`. -/
def Within (P : S → Prop) (m : Nat) (wal : Wal S) : Prop := P wal.store ∧ wal.maxRecordSize = m

omit [WalStore S] in
/-- A read of the store leaves the limit alone. -/
theorem onStore_ends {α : Type} {x : Act S Fault α} {A : α → S → Prop} {E : Fault → S → Prop}
    (h : x.Ends wal.store A E) (hm : wal.maxRecordSize = m) :
    (onStore x).Ends wal (fun a w => A a w.store ∧ w.maxRecordSize = m)
      fun e w => E e w.store ∧ w.maxRecordSize = m :=
  Act.Ends.zoom (h.mono (fun _ _ ha => ⟨ha, hm⟩) fun _ _ he => ⟨he, hm⟩)

/-- As the scan does, a step reads a header, and then the payload that it announces if that is
no longer than the largest record.  Only from behind a payload the iteration can go on. -/
theorem step_turns {Q : Nat → S → Prop} (T : TakesTurns m P Q) (hoff : it.offset < 2 ^ 64)
    (hwal : Within P m wal) :
    it.step.Ends wal
      (fun st w => Within (Between P Q) m w ∧
        ∀ next, continueAt st = some next → next < 2 ^ 64 ∧ P w.store)
      (Reported (Within (Between P Q) m)) := by
  refine Act.ends_get_bind ?_
  refine ((onStore_ends (T.header hwal.1 hoff) hwal.2).mono (fun _ _ h => h)
    fun _ _ h => ⟨h.1.1, Or.inl h.1.2, h.2⟩).bind ?_
  rintro header w1 ⟨⟨-, hQ⟩, hw1⟩
  have hstop : Within (Between P Q) m w1 := ⟨between_of_turn hQ, hw1⟩
  by_cases hshort : header.length < headerLen
  · rw [if_pos hshort]
    exact Act.ends_pure ⟨hstop, nofun⟩
  rw [if_neg hshort]
  by_cases hbig : wal.maxRecordSize < (parseHeader header).len
  · rw [if_pos hbig]
    exact Act.ends_pure ⟨hstop, nofun⟩
  rw [if_neg hbig]
  rw [hwal.2] at hbig
  cases hstart : checkedAdd it.offset headerLen with
  | none => exact Act.ends_fail ⟨⟨_, rfl⟩, hstop⟩
  | some payloadStart =>
      obtain ⟨rfl, hlt⟩ := checkedAdd_eq_some hstart
      refine ((onStore_ends (T.payload hQ hlt (Nat.not_lt.mp hbig)) hw1).mono (fun _ _ h => h)
        fun _ _ h => ⟨h.1.1, Or.inl h.1.2, h.2⟩).bind ?_
      rintro payload w2 ⟨⟨-, hP2⟩, hw2⟩
      have hB2 : Within (Between P Q) m w2 := ⟨Or.inl hP2, hw2⟩
      split
      · exact Act.ends_pure ⟨hB2, nofun⟩
      cases hend : checkedAdd (it.offset + headerLen) (parseHeader header).len with
      | none => exact Act.ends_fail ⟨⟨_, rfl⟩, hB2⟩
      | some next =>
          have hnext : next < 2 ^ 64 := (checkedAdd_eq_some hend).1 ▸ (checkedAdd_eq_some hend).2
          dsimp only
          split
          · exact Act.ends_pure ⟨hB2, fun n h => ⟨Option.some.inj h ▸ hnext, hP2⟩⟩
          · exact Act.ends_pure ⟨hB2, fun n h => ⟨Option.some.inj h ▸ hnext, hP2⟩⟩

/-- The iteration is over, or its next read is that of a header. -/
def Poised (P : S → Prop) (it : Iter) (wal : Wal S) : Prop :=
  it.done = true ∨ it.offset < 2 ^ 64 ∧ P wal.store

/-- The iterator gives every reported error to its caller as an item. -/
theorem next_turns {Q : Nat → S → Prop} (T : TakesTurns m P Q) (hit : it.Poised P wal)
    (hwal : Within (Between P Q) m wal) :
    it.next.Ends wal (fun r wal' => r.2.Poised P wal' ∧ Within (Between P Q) m wal')
      fun _ _ => False := by
  unfold next
  by_cases hstop : it.done = true ∨ it.endAt ≤ it.offset
  · rw [if_pos hstop]
    exact Act.ends_pure ⟨hit, hwal⟩
  rw [if_neg hstop]
  rcases hit with hdone | ⟨hoff, hP⟩
  · exact absurd (Or.inl hdone) hstop
  rcases (step_turns T hoff ⟨hP, hwal.2⟩).cases with
    ⟨st, w1, hst, hw1, hnext⟩ | ⟨e, w1, hst, ⟨e', rfl⟩, hw1⟩
  · rw [Act.Ends, Act.attempt_bind, hst]
    cases st with
    | record r next => exact ⟨Or.inr (hnext next rfl), hw1⟩
    | ended => exact ⟨Or.inl rfl, hw1⟩
    | damaged e next =>
        cases next with
        | none => exact ⟨Or.inl rfl, hw1⟩
        | some next =>
            by_cases hpol : it.policy = .skipBadRecords
            · simp only [hpol, if_true]
              exact ⟨Or.inr (hnext next rfl), hw1⟩
            · simp only [hpol, if_false]
              exact ⟨Or.inl rfl, hw1⟩
  · rw [Act.Ends, Act.attempt_bind, hst]
    exact ⟨Or.inl rfl, hw1⟩

theorem collect_turns {Q : Nat → S → Prop} (T : TakesTurns m P Q) (hit : it.Poised P wal)
    (hwal : Within (Between P Q) m wal) :
    it.collect.Ends wal (fun _ wal' => Within (Between P Q) m wal') fun _ _ => False := by
  -- Every item leaves less to iterate.
  induction hn : it.left using Nat.strongRecOn generalizing it wal with
  | ind n ih =>
      rcases (next_turns T hit hwal).cases with ⟨⟨item, it'⟩, w1, hnext, hit', hw1⟩ | ⟨_, _, _, hf⟩
      · cases item with
        | none => exact Act.ends_of_ok (collect_none hnext) hw1
        | some item =>
            have hless := next_left_lt hnext
            rcases (ih it'.left (hn ▸ hless) hit' hw1 rfl).cases with
              ⟨items, w2, hrest, hw2⟩ | ⟨_, _, _, hf⟩
            · exact Act.ends_of_ok (collect_some hnext hrest) hw2
            · exact hf.elim
      · exact hf.elim

theorem collect_ends (T : Tame (PayloadRead m) P) (hoff : it.offset < 2 ^ 64)
    (hwal : Within P m wal) :
    it.collect.Ends wal (fun _ wal' => Within P m wal') fun _ _ => False :=
  (collect_turns T.takesTurns (Or.inr ⟨hoff, hwal.1⟩) ⟨Or.inl hwal.1, hwal.2⟩).mono
    (fun _ _ h => ⟨between_self h.1, h.2⟩) fun _ _ h => h

end Iter

/-- A log that was opened starts at an offset of the store, and has the configured limit. -/
theorem withStoreAndConfig_ends {config : WalConfig} (T : Tame (OpenRead config) P) (hP : P s) :
    (withStoreAndConfig config).Ends s
      (fun wal s' => wal.store = s' ∧ wal.head < 2 ^ 64 ∧ Iter.Within P config.maxRecordSize wal)
      (Reported P) := by
  refine (T.head hP).bind ?_
  rintro head s1 ⟨hhead, hP1⟩
  refine (recover_safe T hhead hP1).bind ?_
  rintro recovered s2 ⟨-, hP2⟩
  exact Act.ends_get_bind (Act.ends_pure ⟨rfl, hhead, hP2, rfl⟩)

/-- Opening and iterating are safe over every store that answers, whatever it holds and
says.  The open scan and the iterator read headers, each followed by a payload buffer of at
most the largest record or by nothing, and the strict check asks for no buffer longer than a
window; every offset they compute is one, and nothing panics.  An open that returns a log
returns one whose iterator can be drained, and draining it always returns. -/
theorem openIterate_safe (config : WalConfig) {S : Type} [WalStore S] (P : S → Prop)
    (Q : Nat → S → Prop) (s : S) (hP : P s) :
    (TakesTurns config.maxRecordSize P Q → ∀ physical head, head < 2 ^ 64 →
      Safe (Between P Q) (scan config.maxRecordSize physical head) s (· < 2 ^ 64)) ∧
    (∀ damaged limit, limit < 2 ^ 64 → Tame (Strict.MayRead limit) P →
      Safe P (Strict.classify config.maxRecordSize damaged limit) s fun _ => True) ∧
    (Tame (OpenRead config) P →
      (withStoreAndConfig config).Ends s
        (fun wal s' => wal.store = s' ∧
          wal.iter.collect.Ends wal (fun _ wal' => P wal'.store) fun _ _ => False)
        (Reported P)) ∧
    (∀ (wal : Wal S) (it : Iter), wal.store = s → it.offset < 2 ^ 64 →
      TakesTurns wal.maxRecordSize P Q →
      it.collect.Ends wal (fun _ wal' => Between P Q wal'.store) fun _ _ => False) := by
  refine ⟨fun T physical head hhead => scan_turns T physical hhead hP,
    fun damaged limit hlim T => Strict.classify_safe T.toTameReads hlim hP, fun T => ?_, ?_⟩
  · refine (withStoreAndConfig_ends T hP).mono ?_ fun _ _ h => h
    rintro wal s' ⟨hstore, hhead, hwal⟩
    refine ⟨hstore, (Iter.collect_ends (T.mono fun _ _ h => Or.inl h) hhead hwal).mono ?_
      fun _ _ h => h⟩
    exact fun _ _ h => h.1
  · rintro wal it rfl hoff T
    exact (Iter.collect_turns T (Or.inr ⟨hoff, hP⟩) ⟨Or.inl hP, rfl⟩).mono (fun _ _ h => h.1)
      fun _ _ h => h

/-- A store that says it is 40 bytes long and can be read up to 24, under both policies; and one
that panics when it is asked for anything but a header and then a payload of at most 4 bytes. -/
theorem openIterate_safe_unreadable :
    let s : SparseStore := ⟨List.replicate 24 (some 7) ++ List.replicate 16 none, by decide⟩
    let turns : TurnStore := ⟨frame [1, 2, 3] ++ frame [] ++ frame [4, 5, 6, 7, 8], none⟩
    let strict : WalConfig := ⟨4, .skipBadRecords, .strict, by decide⟩
    let lenient : WalConfig := ⟨4, .skipBadRecords, .truncateTail, by decide⟩
    Safe (Between TurnStore.Idle TurnStore.Behind) (scan 4 40 0) turns (· < 2 ^ 64) ∧
      Safe (fun _ => True) (Strict.classify 4 0 40) s (fun _ => True) ∧
      (withStoreAndConfig strict).Ends s
        (fun wal s' => wal.store = s' ∧
          wal.iter.collect.Ends wal (fun _ wal' => (fun _ => True) wal'.store) fun _ _ => False)
        (Reported fun _ => True) ∧
      (∀ wal : Wal TurnStore, wal.store = turns → wal.maxRecordSize = 4 →
        (⟨11, 40, false, .skipBadRecords⟩ : Iter).collect.Ends wal
          (fun _ wal' => Between TurnStore.Idle TurnStore.Behind wal'.store) fun _ _ => False) ∧
      (withStoreAndConfig lenient).Ends s
        (fun wal s' => wal.store = s' ∧
          wal.iter.collect.Ends wal (fun _ wal' => (fun _ => True) wal'.store) fun _ _ => False)
        (Reported fun _ => True) := by
  intro s turns strict lenient
  have hturns := openIterate_safe strict TurnStore.Idle TurnStore.Behind turns rfl
  have hstrict := openIterate_safe strict (fun _ : SparseStore => True) (fun _ _ => True) s trivial
  have hlenient := openIterate_safe lenient (fun _ : SparseStore => True) (fun _ _ => True) s trivial
  exact ⟨hturns.1 TurnStore.takesTurns 40 0 (by decide),
    hstrict.2.1 0 40 (by decide) (SparseStore.tame _), hstrict.2.2.1 (SparseStore.tame _),
    fun wal hwal hmax => hturns.2.2.2 wal _ hwal (by decide) (hmax ▸ TurnStore.takesTurns),
    hlenient.2.2.1 (SparseStore.tame _)⟩

end Wal

end WalDb
