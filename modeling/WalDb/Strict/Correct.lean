/-
The strict-open check decides the naive criterion.

Each piece of the scan is run against a `View` of the store: the window holds
what the image holds, the marks are checksums of initial parts of the image, a
candidate is accepted exactly when `recordAt` finds a record.  Holes are part of
every statement: a piece that gives up names an unreadable byte, and a scan that
finds nothing has read every byte it was asked about.
-/
import WalDb.Strict.Marks

namespace WalDb
namespace Strict

open Lib Record

variable {S : Type} [WalStore S] {img : Image UInt8} {size m : Nat} {P : S → Prop}

/-! ## The window -/

/-- The window's bytes are the image's. -/
structure Window.Holds (img : Image UInt8) (size : Nat) (w : Window) : Prop where
  read_eq : img.read w.start w.bytes.length = some w.bytes
  end_le : w.start + w.bytes.length ≤ size

theorem Window.new_holds {start : Nat} (h : start ≤ size) : (Window.new start).Holds img size :=
  ⟨rfl, h⟩

section Window

variable {w : Window} {σ : Type}

theorem Window.endAt_eq (hw : w.Holds img size) (hsize : size < 2 ^ 64) (s : σ) :
    w.endAt s = (.ok (w.start + w.bytes.length), s) :=
  addChecked_ok (by have := hw.end_le; omega) s

theorem Window.covers_eq (hw : w.Holds img size) (hsize : size < 2 ^ 64) {pos limit : Nat}
    (hlo : w.start ≤ pos) (hhi : pos ≤ w.start + w.bytes.length) (s : σ) :
    w.covers pos limit s =
      (.ok (decide (limit ≤ w.start + w.bytes.length ∨
        windowLen / 2 ≤ w.start + w.bytes.length - pos)), s) := by
  rw [covers, if_neg (by omega), Act.bind_ok (endAt_eq hw hsize s)]
  by_cases hlim : limit ≤ w.start + w.bytes.length
  · simp [hlim]
  · rw [if_neg hlim, Act.bind_ok (subChecked_ok hhi s)]
    simp [hlim]

theorem Window.header_eq (hw : w.Holds img size) {pos : Nat} (hlo : w.start ≤ pos)
    (hhi : pos + headerLen ≤ w.start + w.bytes.length) (s : σ) :
    ∃ hdr, w.header pos s = (.ok hdr, s) ∧ img.read pos headerLen = some hdr := by
  have hsub := Image.read_sub hw.read_eq (i := pos - w.start) (k := headerLen) (by omega)
  rw [Nat.add_sub_cancel' hlo] at hsub
  refine ⟨_, ?_, hsub⟩
  rw [header, Act.bind_ok (subChecked_ok hlo s),
    sliceChecked_ok (Nat.le_add_right _ _) (by omega), Nat.add_sub_cancel_left]

/-- A slice the window gives is the image's. -/
theorem Window.slice_eq (hw : w.Holds img size) (hsize : size < 2 ^ 64) {lo hi : Nat}
    (hle : lo ≤ hi) (s : σ) :
    ∃ r, w.slice lo hi s = (.ok r, s) ∧ ∀ bs, r = some bs → img.read lo (hi - lo) = some bs := by
  by_cases hlo : lo < w.start
  · refine ⟨none, by rw [slice, if_pos hlo]; rfl, fun bs h => ?_⟩
    cases h
  by_cases hhi : w.start + w.bytes.length < hi
  · refine ⟨none, ?_, fun bs h => by cases h⟩
    rw [slice, if_neg hlo, Act.bind_ok (endAt_eq hw hsize s), if_pos hhi]
    rfl
  · have hsub := Image.read_sub hw.read_eq (i := lo - w.start) (k := hi - lo) (by omega)
    rw [Nat.add_sub_cancel' (by omega)] at hsub
    refine ⟨some ((w.bytes.drop (lo - w.start)).take (hi - lo)), ?_, fun bs h => ?_⟩
    · rw [slice, if_neg hlo, Act.bind_ok (endAt_eq hw hsize s), if_neg hhi,
        Act.bind_ok (subChecked_ok (by omega) s), Act.bind_ok (subChecked_ok (by omega) s),
        Act.bind_ok (sliceChecked_ok (by omega) (by omega) s),
        show hi - w.start - (lo - w.start) = hi - lo by omega]
      rfl
    · rw [hsub, h]

end Window

/-- Refilling reads the window whole, or there is a hole ahead. -/
theorem Window.fill_eq (V : View img size P) {pos : Nat} (hpos : pos ≤ size) {s : S} (hP : P s) :
    ∃ w whole s', Window.fill pos size s = (.ok (w, whole), s') ∧ P s' ∧
      (whole = true → w.Holds img size ∧ w.start = pos ∧
        w.bytes.length = min (size - pos) windowLen) ∧
      (whole = false → Hole img pos size) := by
  obtain ⟨bs, s', hr, hP', hcase⟩ := readAt_cases V hP
    (show pos + min (size - pos) windowLen < 2 ^ 64 by have := V.size_lt; omega)
  refine ⟨{ start := pos, bytes := bs }, bs.length == min (size - pos) windowLen, s', ?_, hP', ?_, ?_⟩
  · rw [fill, Act.bind_ok (subChecked_ok hpos s), Act.bind_ok hr]
    rfl
  · intro hwhole
    have hlen : bs.length = min (size - pos) windowLen := by simpa using hwhole
    rcases hcase with ⟨hlt, -⟩ | ⟨-, hread⟩
    · omega
    · exact ⟨⟨by rw [← hlen] at hread; exact hread, by dsimp only; omega⟩, rfl, hlen⟩
  · intro hshort
    rcases hcase with ⟨-, hhole⟩ | ⟨hlen, -⟩
    · exact hhole.mono (Nat.le_refl _) (by omega)
    · simp [hlen] at hshort

/-- `span` is the checksum of `[lo, hi)`. -/
theorem span_eq (V : View img size P) {p : Prefix} (hok : MarksOk img p.base p.marks) {lo hi : Nat}
    (hbase : p.base ≤ lo) (hle : lo ≤ hi) (hhi : hi ≤ size) {s : S} (hP : P s) :
    ∃ r s', p.span lo hi s = (.ok r, s') ∧ P s' ∧
      (r = none ∧ Hole img p.base hi ∨
        ∃ crc p' bs, r = some (crc, p') ∧ p'.base = p.base ∧ MarksOk img p.base p'.marks ∧
          img.read lo (hi - lo) = some bs ∧ crc = crc32c bs) := by
  have hsize := V.size_lt
  obtain ⟨r, t', hrun, hkept, htells⟩ := spanInPlace_eq (View.feeds V p.base hhi) hbase hle
    (t := (s, p)) ⟨hP, rfl, hok⟩
  refine ⟨_, t'.1, span_inPlace hrun (by omega) (by omega), hkept.store, ?_⟩
  cases r with
  | none => exact Or.inl ⟨rfl, htells⟩
  | some crc =>
      obtain ⟨bs, hread, hcrc⟩ := htells
      exact Or.inr ⟨crc, t'.2, bs, rfl, hkept.base_eq, hkept.marks, hread, hcrc⟩

/-! ## One candidate -/

/-- The two ways to test a checksum agree: over the header's length field and
the payload in one piece, or as `verify` does. -/
theorem verify_iff_crc {hdr payload : List UInt8} {crc : BitVec 32} (hlen : hdr.length = headerLen) :
    verify hdr payload crc = true ↔ crc32c (hdr.drop lenOffset ++ payload) = crc := by
  have htake : (hdr.drop lenOffset).take (headerLen - lenOffset) = hdr.drop lenOffset :=
    List.take_of_length_le (by rw [List.length_drop, hlen])
  simp only [verify, htake, beq_iff_eq, crc32c_append]

theorem recordAt_of_payload {pos : Nat} {hdr payload : List UInt8}
    (hhdr : img.read pos headerLen = some hdr) (hlen : (parseHeader hdr).len ≤ m)
    (hpay : img.read (pos + headerLen) (parseHeader hdr).len = some payload) :
    (recordAt img m pos).isSome ↔ verify hdr payload (parseHeader hdr).crc = true := by
  simp only [recordAt, hhdr, Option.bind_some, if_pos hlen, hpay]
  split <;> simp_all

/-- A header that claims too much, or more than is left, starts no record. -/
theorem recordAt_of_long (V : View img size P) {pos : Nat} {hdr : List UInt8}
    (hhdr : img.read pos headerLen = some hdr)
    (hlong : ¬ ((parseHeader hdr).len ≤ m ∧ (parseHeader hdr).len ≤ size - pos - headerLen)) :
    recordAt img m pos = none := by
  have hle := V.read_le (by decide) hhdr
  simp only [recordAt, hhdr, Option.bind_some]
  by_cases hlen : (parseHeader hdr).len ≤ m
  · rw [if_pos hlen]
    cases hpay : img.read (pos + headerLen) (parseHeader hdr).len with
    | none => rfl
    | some payload =>
        have := V.read_le (by omega) hpay
        exact absurd ⟨hlen, by omega⟩ hlong
  · rw [if_neg hlen]

/-- A candidate is accepted exactly when a record starts there. -/
theorem candidate_eq (V : View img size P) {w : Window} (hw : w.Holds img size) {p : Prefix}
    (hok : MarksOk img p.base p.marks) {pos : Nat} (hbase : p.base ≤ pos) {hdr : List UInt8}
    (hhdr : img.read pos headerLen = some hdr) {s : S} (hP : P s) :
    ∃ r s', candidate m size w p pos hdr s = (.ok r, s') ∧ P s' ∧
      (r = none ∧ Hole img p.base size ∨
        ∃ intact p', r = some (intact, p') ∧ p'.base = p.base ∧ MarksOk img p.base p'.marks ∧
          (intact = true ↔ (recordAt img m pos).isSome)) := by
  have hsize := V.size_lt
  have hle := V.read_le (by decide) hhdr
  have h8 : headerLen = 8 := rfl
  have h4 : lenOffset = 4 := rfl
  by_cases hplaus : (parseHeader hdr).len ≤ m ∧ (parseHeader hdr).len ≤ size - pos - headerLen
  · obtain ⟨r, hslice, hsl⟩ := Window.slice_eq hw hsize
      (show pos + headerLen ≤ pos + headerLen + (parseHeader hdr).len by omega) s
    cases r with
    | some payload =>
        have hpay := hsl payload rfl
        rw [Nat.add_sub_cancel_left] at hpay
        refine ⟨_, s, ?_, hP, Or.inr ⟨_, p, rfl, rfl, hok,
          (recordAt_of_payload hhdr hplaus.1 hpay).symm⟩⟩
        rw [candidate, Act.bind_ok (subChecked_ok (by omega) s),
          Act.bind_ok (subChecked_ok (by omega) s), if_pos hplaus,
          Act.bind_ok (addChecked_ok (by omega) s), Act.bind_ok (addChecked_ok (by omega) s),
          Act.bind_ok hslice]
        rfl
    | none =>
        obtain ⟨r, s1, hspan, hP1, hcase⟩ := span_eq V hok (show p.base ≤ pos + lenOffset by omega)
          (show pos + lenOffset ≤ pos + headerLen + (parseHeader hdr).len by omega)
          (by omega) hP
        have hrun : candidate m size w p pos hdr s =
            (.ok (r.map fun x => (x.1 == (parseHeader hdr).crc, x.2)), s1) := by
          rw [candidate, Act.bind_ok (subChecked_ok (by omega) s),
            Act.bind_ok (subChecked_ok (by omega) s), if_pos hplaus,
            Act.bind_ok (addChecked_ok (by omega) s), Act.bind_ok (addChecked_ok (by omega) s),
            Act.bind_ok hslice]
          simp only
          rw [Act.bind_ok hspan]
          cases r <;> rfl
        rw [hrun]
        rcases hcase with ⟨rfl, hhole⟩ | ⟨crc, p1, bs, rfl, hb1, hok1, hread, rfl⟩
        · exact ⟨none, s1, rfl, hP1, Or.inl ⟨rfl, hhole.mono (Nat.le_refl _) (by omega)⟩⟩
        · -- The span is the length field followed by the payload.
          have hfield := Image.read_sub hhdr (i := lenOffset) (k := 4) (by decide)
          have hpay := Image.read_sub hread (i := 4) (k := (parseHeader hdr).len) (by omega)
          rw [show pos + lenOffset + 4 = pos + headerLen by omega] at hpay
          generalize (bs.drop 4).take (parseHeader hdr).len = payload at hpay
          have hfl : (hdr.drop lenOffset).take 4 = hdr.drop lenOffset :=
            List.take_of_length_le (by rw [List.length_drop, Image.read_length hhdr]; decide)
          rw [hfl] at hfield
          have hall := (Image.read_append_iff (Image.read_length hfield) (Image.read_length hpay)).mpr
            ⟨hfield, by rw [show pos + lenOffset + 4 = pos + headerLen by omega]; exact hpay⟩
          rw [show pos + headerLen + (parseHeader hdr).len - (pos + lenOffset) =
            4 + (parseHeader hdr).len by omega, hall] at hread
          cases hread
          refine ⟨_, s1, rfl, hP1, Or.inr ⟨_, p1, rfl, hb1, hok1, ?_⟩⟩
          rw [recordAt_of_payload hhdr hplaus.1 hpay, verify_iff_crc (Image.read_length hhdr),
            beq_iff_eq]
  · refine ⟨some (false, p), s, ?_, hP, Or.inr ⟨false, p, rfl, rfl, hok, ?_⟩⟩
    · rw [candidate, Act.bind_ok (subChecked_ok (by omega) s),
        Act.bind_ok (subChecked_ok (by omega) s), if_neg hplaus]
      rfl
    · rw [recordAt_of_long V hhdr hplaus]
      simp

end Strict
end WalDb
