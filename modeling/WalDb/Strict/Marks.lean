/-
The prefix checksums of the strict-open check (`Prefix` of `strict.rs`), in place.

`Classify` hands the marks on as values and drops them where the scan ends.  The source
changes them in place: what was pushed before a short read stays for the next call.
Here the two functions are actions on the store and the prefix together, the calls
come in any order, and every one of them is a checksum of the image or names an
unreadable byte.  `span_inPlace` says that the functions of `Classify` are these ones,
so that what is shown here is shown of the scan.

A call is only promised answers for reads of `[base, hi)` (`Feeds`).  A store that
writes its reads down shows that it asks for no others.  The index of a mark always fits
a `usize` of 64 bits; the source gives up where it does not.
-/
import WalDb.Decode
import WalDb.Recovery

namespace WalDb
namespace Strict

open Lib Record

variable {S : Type} [WalStore S] {img : Image UInt8} {size base lo hi : Nat} {P : S → Prop}

/-- Some byte of `[lo, hi)` cannot be read. -/
def Hole (img : Image UInt8) (lo hi : Nat) : Prop := ∃ o, lo ≤ o ∧ o < hi ∧ img o = none

theorem hole_of_read_none {lo n : Nat} (h : img.read lo n = none) : Hole img lo (lo + n) := by
  obtain ⟨i, hi, hnone⟩ := Image.read_eq_none_iff.mp h
  exact ⟨lo + i, by omega, by omega, hnone⟩

theorem Hole.mono {lo hi lo' hi' : Nat} (h : Hole img lo hi) (hlo : lo' ≤ lo) (hhi : hi ≤ hi') :
    Hole img lo' hi' := by
  obtain ⟨o, h1, h2, h3⟩ := h
  exact ⟨o, by omega, by omega, h3⟩

theorem not_hole_of_read {lo n : Nat} {bs : List UInt8} (h : img.read lo n = some bs) :
    ¬ Hole img lo (lo + n) := by
  rintro ⟨o, h1, h2, hnone⟩
  rw [Image.read_eq_none_iff.mpr ⟨o - lo, by omega, by rw [Nat.add_sub_cancel' h1]; exact hnone⟩]
    at h
  cases h

/-- A read either returns what the image holds or is short of a hole. -/
theorem readAt_cases (V : View img size P) {s : S} (hP : P s) {off n : Nat}
    (hfit : off + n < 2 ^ 64) :
    ∃ bs s', WalStore.readAt off n s = (.ok bs, s') ∧ P s' ∧
      (bs.length < n ∧ Hole img off (off + n) ∨ bs.length = n ∧ img.read off n = some bs) := by
  cases h : img.read off n with
  | none =>
      obtain ⟨bs, s', hr, hlt, hP'⟩ := V.short hP hfit h
      exact ⟨bs, s', hr, hP', Or.inl ⟨hlt, hole_of_read_none h⟩⟩
  | some bs =>
      obtain ⟨s', hr, hP'⟩ := V.full hP h
      exact ⟨bs, s', hr, hP', Or.inr ⟨Image.read_length h, rfl⟩⟩

/-! ## Marks -/

/-- Every mark is the checksum of the initial part of the image it stands for. -/
structure MarksOk (img : Image UInt8) (base : Nat) (marks : List (BitVec 32)) : Prop where
  pos : 0 < marks.length
  mark : ∀ i, i < marks.length →
    ∃ bs, img.read base (i * markInterval) = some bs ∧ marks.getD i 0#32 = crc32c bs

theorem marksOk_new (img : Image UInt8) (base : Nat) : MarksOk img base [0#32] := by
  refine ⟨by decide, fun i hi => ⟨[], ?_, ?_⟩⟩
  · rw [show i = 0 by simpa using hi, Nat.zero_mul]
    rfl
  · rw [show i = 0 by simpa using hi, crc32c_nil]
    rfl

/-- Continuing a checksum over the next range of the image. -/
theorem crc_extend {base n k : Nat} {as bs : List UInt8} (ha : img.read base n = some as)
    (hb : img.read (base + n) k = some bs) :
    img.read base (n + k) = some (as ++ bs) ∧ crc32cAppend (crc32c as) bs = crc32c (as ++ bs) :=
  ⟨(Image.read_append_iff (Image.read_length ha) (Image.read_length hb)).mpr ⟨ha, hb⟩,
    (crc32c_append as bs).symm⟩

/-- Pushing the checksum of one more interval keeps the marks right. -/
theorem MarksOk.push {base : Nat} {marks : List (BitVec 32)} {bs : List UInt8}
    (hok : MarksOk img base marks)
    (hread : img.read (base + (marks.length - 1) * markInterval) markInterval = some bs) :
    MarksOk img base
      (marks ++ [crc32cAppend (marks.getD (marks.length - 1) 0#32) bs]) := by
  have hpos := hok.pos
  obtain ⟨as, ha, hcrc⟩ := hok.mark (marks.length - 1) (by omega)
  obtain ⟨hall, happ⟩ := crc_extend ha hread
  refine ⟨by simp, fun i hi => ?_⟩
  rw [List.length_append, List.length_singleton] at hi
  by_cases hlt : i < marks.length
  · obtain ⟨cs, hc, hcs⟩ := hok.mark i hlt
    refine ⟨cs, hc, ?_⟩
    simp only [← hcs, List.getD_eq_getElem?_getD, List.getElem?_append_left hlt]
  · have hi' : i = marks.length := by omega
    subst hi'
    refine ⟨as ++ bs, ?_, ?_⟩
    · rw [← hall, ← Nat.succ_mul, Nat.succ_eq_add_one, Nat.sub_add_cancel hpos]
    · rw [List.getD_eq_getElem?_getD, List.getElem?_append_right (Nat.le_refl _), Nat.sub_self,
        hcrc, happ]
      rfl

/-! ## In place -/

namespace Prefix

/-- A call on the store, which leaves the prefix alone. -/
def onStore {α : Type} (x : Act S Fault α) : Act (S × Prefix) Fault α :=
  Act.zoom Prod.fst (fun t s => (s, t.2)) x

/-- Push a mark, if the store did not read short. -/
def keepMark : Option (BitVec 32) → Act (S × Prefix) Fault Bool
  | none => pure false
  | some crc => fun t => (.ok true, (t.1, { t.2 with marks := t.2.marks ++ [crc] }))

/-- One round of the loop of `up_to`: the mark after the last one. -/
def pushMark : Act (S × Prefix) Fault Bool := do
  let t ← Act.get
  let last ← subChecked t.2.marks.length 1
  let seed ← getChecked t.2.marks last
  let lo ← addChecked t.2.base (last * markInterval)
  let crc ← onStore (extend seed lo markInterval)
  keepMark crc

/-- The loop of `up_to`, which makes at most `rounds` rounds. -/
def pushMarksInPlace (index : Nat) : Nat → Act (S × Prefix) Fault Bool
  | 0 => pure true
  | rounds + 1 => do
      let t ← Act.get
      if t.2.marks.length ≤ index then do
        match ← pushMark with
        | true => pushMarksInPlace index rounds
        | false => pure false
      else pure true

/-- `up_to`. -/
def upToInPlace (pos : Nat) : Act (S × Prefix) Fault (Option (BitVec 32)) := do
  let t ← Act.get
  let d ← subChecked pos t.2.base
  let index := d / markInterval
  -- `usize::try_from`
  if index < 2 ^ 64 then do
    match ← pushMarksInPlace index (index + 1 - t.2.marks.length) with
    | true => do
        let t ← Act.get
        let lo ← addChecked t.2.base (index * markInterval)
        let seed ← getChecked t.2.marks index
        let rest ← subChecked pos lo
        onStore (extend seed lo rest)
    | false => pure none
  else pure none

/-- `span`. -/
def spanInPlace (lo hi : Nat) : Act (S × Prefix) Fault (Option (BitVec 32)) := do
  match ← upToInPlace lo with
  | none => pure none
  | some before => do
      match ← upToInPlace hi with
      | none => pure none
      | some through => do
          let len ← subChecked hi lo
          pure (some (through ^^^ zeroShift before (BitVec.ofNat 64 len)))

end Prefix

/-- The store answers every read of `[base, hi)` from the image. -/
structure Feeds (img : Image UInt8) (base hi : Nat) (P : S → Prop) : Prop where
  read : ∀ {s : S} {off n : Nat}, P s → base ≤ off → off + n ≤ hi →
    ∃ bs s', WalStore.readAt off n s = (.ok bs, s') ∧ P s' ∧
      (bs.length < n ∧ Hole img off (off + n) ∨ bs.length = n ∧ img.read off n = some bs)
  hi_lt : hi < 2 ^ 64

theorem View.feeds (V : View img size P) (base : Nat) (h : hi ≤ size) : Feeds img base hi P where
  read hP _ hfit := readAt_cases V hP (by have := V.size_lt; omega)
  hi_lt := by have := V.size_lt; omega

/-- What holds between two calls. -/
structure Kept (img : Image UInt8) (base : Nat) (P : S → Prop) (t : S × Prefix) : Prop where
  store : P t.1
  base_eq : t.2.base = base
  marks : MarksOk img base t.2.marks

/-- What may be said of `[lo, hi)`: its checksum, or that a byte below `hi` is
unreadable. -/
def Tells (img : Image UInt8) (base lo hi : Nat) : Option (BitVec 32) → Prop
  | none => Hole img base hi
  | some crc => ∃ bs, img.read lo (hi - lo) = some bs ∧ crc = crc32c bs

variable {t : S × Prefix}

theorem onStore_extend (F : Feeds img base hi P) (ht : Kept img base P t) (crc : BitVec 32)
    (off len : Nat) (hoff : base ≤ off) (hend : off + len ≤ hi) :
    ∃ r s', Prefix.onStore (Prefix.extend crc off len) t = (.ok r, (s', t.2)) ∧
      Kept img base P (s', t.2) ∧
      (r = none ∧ Hole img off (off + len) ∨
        ∃ bs, img.read off len = some bs ∧ r = some (crc32cAppend crc bs)) := by
  obtain ⟨bs, s', hr, hP', hcase⟩ := F.read ht.store hoff hend
  have hkept : Kept img base P (s', t.2) := ⟨hP', ht.base_eq, ht.marks⟩
  rcases hcase with ⟨hlt, hhole⟩ | ⟨hlen, hread⟩
  · refine ⟨none, s', ?_, hkept, Or.inl ⟨rfl, hhole⟩⟩
    rw [Prefix.onStore, Act.zoom_apply, Prefix.extend, Act.bind_ok hr, if_pos hlt]
    rfl
  · refine ⟨some (crc32cAppend crc bs), s', ?_, hkept, Or.inr ⟨bs, hread, rfl⟩⟩
    rw [Prefix.onStore, Act.zoom_apply, Prefix.extend, Act.bind_ok hr, if_neg (by omega)]
    rfl

/-- A round pushes the next mark, and changes none that is there. -/
theorem pushMark_eq (F : Feeds img base hi P) (ht : Kept img base P t)
    (hfit : base + t.2.marks.length * markInterval ≤ hi) :
    ∃ b t', Prefix.pushMark t = (.ok b, t') ∧ Kept img base P t' ∧
      (b = true → t'.2.marks.length = t.2.marks.length + 1) ∧
      (b = false → Hole img base (base + t.2.marks.length * markInterval)) := by
  have hhi := F.hi_lt
  have hpos := ht.marks.pos
  have hlast : (t.2.marks.length - 1) * markInterval + markInterval =
      t.2.marks.length * markInterval := by
    rw [← Nat.succ_mul, Nat.succ_eq_add_one, Nat.sub_add_cancel hpos]
  obtain ⟨r, s', hext, hkept, hcase⟩ := onStore_extend F ht
    (t.2.marks.getD (t.2.marks.length - 1) 0#32) (base + (t.2.marks.length - 1) * markInterval)
    markInterval (Nat.le_add_right _ _) (by omega)
  have hrun : Prefix.pushMark t = Prefix.keepMark r (s', t.2) := by
    rw [Prefix.pushMark, Act.get_bind, Act.bind_ok (subChecked_ok (show 1 ≤ _ from hpos) t),
      Act.bind_ok (getChecked_ok (by omega) 0#32 t), ht.base_eq,
      Act.bind_ok (addChecked_ok (by omega) t), Act.bind_ok hext]
  rcases hcase with ⟨rfl, hhole⟩ | ⟨bs, hread, rfl⟩
  · refine ⟨false, (s', t.2), hrun, hkept, fun h => (by cases h), fun _ => ?_⟩
    exact hhole.mono (Nat.le_add_right _ _) (by omega)
  · refine ⟨true, _, hrun, ⟨hkept.store, hkept.base_eq, ht.marks.push hread⟩, fun _ => ?_,
      fun h => (by cases h)⟩
    simp

theorem pushMarksInPlace_eq (F : Feeds img base hi P) (index rounds : Nat)
    (hfit : base + index * markInterval ≤ hi) (ht : Kept img base P t)
    (hrounds : index + 1 ≤ rounds + t.2.marks.length) :
    ∃ b t', Prefix.pushMarksInPlace index rounds t = (.ok b, t') ∧ Kept img base P t' ∧
      (b = true → index < t'.2.marks.length) ∧
      (b = false → Hole img base (base + index * markInterval)) := by
  induction rounds generalizing t with
  | zero => exact ⟨true, t, rfl, ht, fun _ => by omega, fun h => (by cases h)⟩
  | succ rounds ih =>
      rw [Prefix.pushMarksInPlace, Act.get_bind]
      by_cases hmore : t.2.marks.length ≤ index
      · have hmul : t.2.marks.length * markInterval ≤ index * markInterval :=
          Nat.mul_le_mul_right _ hmore
        obtain ⟨b, t1, hpush, ht1, hlen, hhole⟩ := pushMark_eq F ht (by omega)
        rw [if_pos hmore, Act.bind_ok hpush]
        cases b with
        | true => exact ih ht1 (by have := hlen rfl; omega)
        | false =>
            refine ⟨false, t1, rfl, ht1, fun h => (by cases h), fun _ => ?_⟩
            exact (hhole rfl).mono (Nat.le_refl _) (by omega)
      · rw [if_neg hmore]
        exact ⟨true, t, rfl, ht, fun _ => by omega, fun h => (by cases h)⟩

/-- `up_to` tells the checksum of `[base, pos)`. -/
theorem upToInPlace_eq (F : Feeds img base hi P) {pos : Nat} (hlo : base ≤ pos) (hhi : pos ≤ hi)
    (ht : Kept img base P t) :
    ∃ r t', Prefix.upToInPlace pos t = (.ok r, t') ∧ Kept img base P t' ∧
      Tells img base base pos r := by
  have hlt := F.hi_lt
  have hfloor : (pos - base) / markInterval * markInterval ≤ pos - base := Nat.div_mul_le_self _ _
  have husize : (pos - base) / markInterval < 2 ^ 64 :=
    Nat.lt_of_le_of_lt (Nat.div_le_self _ _) (by omega)
  generalize hidx : (pos - base) / markInterval = index at hfloor husize
  obtain ⟨b, t1, hpush, ht1, hlen, hhole⟩ :=
    pushMarksInPlace_eq F index (index + 1 - t.2.marks.length)
      (show base + index * markInterval ≤ hi by omega) ht (by omega)
  rw [Prefix.upToInPlace, Act.get_bind, ht.base_eq, Act.bind_ok (subChecked_ok hlo t)]
  simp only [hidx]
  rw [if_pos husize, Act.bind_ok hpush]
  cases b with
  | false => exact ⟨none, t1, rfl, ht1, (hhole rfl).mono (Nat.le_refl _) (by omega)⟩
  | true =>
      obtain ⟨as, ha, hcrc⟩ := ht1.marks.mark index (hlen rfl)
      obtain ⟨r, s2, hext, ht2, hcase⟩ := onStore_extend F ht1 (t1.2.marks.getD index 0#32)
        (base + index * markInterval) (pos - (base + index * markInterval))
        (Nat.le_add_right _ _) (by omega)
      refine ⟨r, (s2, t1.2), ?_, ht2, ?_⟩
      · dsimp only
        rw [Act.get_bind, ht1.base_eq, Act.bind_ok (addChecked_ok (by omega) t1),
          Act.bind_ok (getChecked_ok (hlen rfl) 0#32 t1),
          Act.bind_ok (subChecked_ok (by omega) t1), hext]
      · rcases hcase with ⟨rfl, hhole'⟩ | ⟨bs, hread, rfl⟩
        · exact hhole'.mono (Nat.le_add_right _ _) (by omega)
        · obtain ⟨hall, happ⟩ := crc_extend ha hread
          refine ⟨as ++ bs, ?_, by rw [hcrc, happ]⟩
          rw [← hall, show index * markInterval + (pos - (base + index * markInterval)) =
            pos - base by omega]

/-- `span` tells the checksum of `[lo, hi)`. -/
theorem spanInPlace_eq (F : Feeds img base hi P) (hbase : base ≤ lo) (hle : lo ≤ hi)
    (ht : Kept img base P t) :
    ∃ r t', Prefix.spanInPlace lo hi t = (.ok r, t') ∧ Kept img base P t' ∧
      Tells img base lo hi r := by
  have hlt := F.hi_lt
  obtain ⟨r1, t1, h1, ht1, htells1⟩ := upToInPlace_eq F hbase hle ht
  rw [Prefix.spanInPlace, Act.bind_ok h1]
  cases r1 with
  | none => exact ⟨none, t1, rfl, ht1, htells1.mono (Nat.le_refl _) hle⟩
  | some before =>
      obtain ⟨as, hread1, rfl⟩ := htells1
      obtain ⟨r2, t2, h2, ht2, htells2⟩ := upToInPlace_eq F (Nat.le_trans hbase hle)
        (Nat.le_refl hi) ht1
      dsimp only
      rw [Act.bind_ok h2]
      cases r2 with
      | none => exact ⟨none, t2, rfl, ht2, htells2⟩
      | some through =>
          obtain ⟨cs, hread2, rfl⟩ := htells2
          -- The longer prefix is the shorter one followed by the span.
          have hspan : img.read lo (hi - lo) = some ((cs.drop (lo - base)).take (hi - lo)) := by
            have hsub := Image.read_sub hread2 (i := lo - base) (k := hi - lo) (by omega)
            rwa [Nat.add_sub_cancel' hbase] at hsub
          generalize (cs.drop (lo - base)).take (hi - lo) = bs at hspan
          have hjoin : cs = as ++ bs := by
            have hall := (Image.read_append_iff (Image.read_length hread1)
              (Image.read_length hspan)).mpr
                ⟨hread1, by rw [Nat.add_sub_cancel' hbase]; exact hspan⟩
            rw [show hi - base = lo - base + (hi - lo) by omega, hall] at hread2
            exact (Option.some.inj hread2).symm
          refine ⟨some (crc32c bs), t2, ?_, ht2, bs, hspan, rfl⟩
          dsimp only
          rw [Act.bind_ok (subChecked_ok hle t2), hjoin, ← Image.read_length hspan,
            crc32c_span as bs (by rw [Image.read_length hspan]; omega)]
          rfl

/-! ## The functions of the scan -/

section Transfer

variable {σ α : Type} {s s' : σ} (τ : Type)

theorem subChecked_transfer {a b c : Nat} (h : subChecked a b s = (.ok c, s')) :
    s' = s ∧ ∀ t : τ, subChecked a b t = (.ok c, t) := by
  unfold subChecked at h
  split at h
  · rename_i hle
    cases h
    exact ⟨rfl, subChecked_ok hle⟩
  · cases h

theorem addChecked_transfer {a b c : Nat} (h : addChecked a b s = (.ok c, s')) :
    s' = s ∧ ∀ t : τ, addChecked a b t = (.ok c, t) := by
  unfold addChecked at h
  split at h
  · rename_i hlt
    cases h
    exact ⟨rfl, addChecked_ok hlt⟩
  · cases h

theorem getChecked_transfer {xs : List α} {i : Nat} {a : α} (h : getChecked xs i s = (.ok a, s')) :
    s' = s ∧ ∀ t : τ, getChecked xs i t = (.ok a, t) := by
  cases hget : xs[i]? with
  | none =>
      rw [getChecked, hget] at h
      cases h
  | some c =>
      rw [getChecked, hget] at h
      cases h
      refine ⟨rfl, fun t => ?_⟩
      rw [getChecked, hget]
      rfl

end Transfer

omit [WalStore S] in
theorem onStore_ok {α : Type} {x : Act S Fault α} {a : α} {t' : S × Prefix}
    (h : Prefix.onStore x t = (.ok a, t')) : x t.1 = (.ok a, t'.1) ∧ t'.2 = t.2 := by
  rw [Prefix.onStore, Act.zoom_apply] at h
  obtain ⟨h1, h2⟩ := Prod.mk.inj h
  subst h2
  exact ⟨Prod.ext h1 rfl, rfl⟩

/-- A round as the loop of `Classify` makes it. -/
theorem pushMark_inPlace {index : Nat} {b : Bool} {t' : S × Prefix}
    (h : Prefix.pushMark t = (.ok b, t')) (hmore : t.2.marks.length ≤ index) :
    t'.2.base = t.2.base ∧
      (b = true → t'.2.marks.length = t.2.marks.length + 1 ∧
        Prefix.pushMarks t.2.base index t.2.marks t.1 =
          Prefix.pushMarks t.2.base index t'.2.marks t'.1) ∧
      (b = false → Prefix.pushMarks t.2.base index t.2.marks t.1 = (.ok none, t'.1)) := by
  rw [Prefix.pushMark, Act.get_bind] at h
  obtain ⟨last, t1, hsub, h1⟩ := Act.bind_eq_ok h
  obtain ⟨ht1, hsub⟩ := subChecked_transfer S hsub
  obtain ⟨seed, t2, hget, h2⟩ := Act.bind_eq_ok h1
  obtain ⟨ht2, hget⟩ := getChecked_transfer S hget
  obtain ⟨lo, t3, hadd, h3⟩ := Act.bind_eq_ok h2
  obtain ⟨ht3, hadd⟩ := addChecked_transfer S hadd
  obtain ⟨r, t4, hext, h4⟩ := Act.bind_eq_ok h3
  obtain ⟨hext, hsame⟩ := onStore_ok hext
  rw [ht3, ht2, ht1] at hext hsame
  rw [Prefix.pushMarks, if_pos hmore, Act.bind_ok (hsub _), Act.bind_ok (hget _),
    Act.bind_ok (hadd _), Act.bind_ok hext]
  cases r with
  | none =>
      cases h4
      exact ⟨by rw [hsame], fun hb => (by cases hb), fun _ => rfl⟩
  | some crc =>
      cases h4
      refine ⟨by rw [hsame], fun _ => ⟨?_, ?_⟩, fun hb => (by cases hb)⟩
      · simp [hsame]
      · simp only [hsame]

theorem pushMarks_inPlace {index rounds : Nat} {b : Bool} {t' : S × Prefix}
    (h : Prefix.pushMarksInPlace index rounds t = (.ok b, t'))
    (hrounds : index + 1 ≤ rounds + t.2.marks.length) :
    t'.2.base = t.2.base ∧ Prefix.pushMarks t.2.base index t.2.marks t.1 =
      (.ok (if b then some t'.2.marks else none), t'.1) := by
  induction rounds generalizing t with
  | zero =>
      cases h
      rw [Prefix.pushMarks, if_neg (by omega)]
      exact ⟨rfl, rfl⟩
  | succ rounds ih =>
      rw [Prefix.pushMarksInPlace, Act.get_bind] at h
      by_cases hmore : t.2.marks.length ≤ index
      · rw [if_pos hmore] at h
        obtain ⟨c, t1, hpush, h⟩ := Act.bind_eq_ok h
        obtain ⟨hbase, hnext, hstop⟩ := pushMark_inPlace hpush hmore
        cases c with
        | true =>
            obtain ⟨hlen, hrun⟩ := hnext rfl
            obtain ⟨hbase', hrest⟩ := ih h (by omega)
            rw [hbase] at hrest
            rw [hrun]
            exact ⟨hbase'.trans hbase, hrest⟩
        | false =>
            cases h
            exact ⟨hbase, hstop rfl⟩
      · rw [if_neg hmore] at h
        cases h
        rw [Prefix.pushMarks, if_neg hmore]
        exact ⟨rfl, rfl⟩

theorem upTo_inPlace {pos : Nat} {r : Option (BitVec 32)} {t' : S × Prefix}
    (h : Prefix.upToInPlace pos t = (.ok r, t')) (hpos : pos < 2 ^ 64) :
    t.2.upTo pos t.1 = (.ok (r.map fun crc => (crc, t'.2)), t'.1) := by
  rw [Prefix.upToInPlace, Act.get_bind] at h
  obtain ⟨d, t1, hsub, h1⟩ := Act.bind_eq_ok h
  have hd : d ≤ pos := by
    unfold subChecked at hsub
    split at hsub
    · cases hsub
      exact Nat.sub_le _ _
    · cases hsub
  obtain ⟨ht1, hsub⟩ := subChecked_transfer S hsub
  have husize : d / markInterval < 2 ^ 64 :=
    Nat.lt_of_le_of_lt (Nat.div_le_self _ _) (by omega)
  dsimp only at h1
  rw [if_pos husize, ht1] at h1
  obtain ⟨b, t2, hpush, h2⟩ := Act.bind_eq_ok h1
  obtain ⟨hbase, hmarks⟩ := pushMarks_inPlace hpush (by omega)
  rw [Prefix.upTo, Act.bind_ok (hsub _), Act.bind_ok hmarks]
  cases b with
  | false =>
      cases h2
      rfl
  | true =>
      dsimp only at h2
      rw [Act.get_bind, hbase] at h2
      obtain ⟨lo, t3, hadd, h3⟩ := Act.bind_eq_ok h2
      obtain ⟨ht3, hadd⟩ := addChecked_transfer S hadd
      obtain ⟨seed, t4, hget, h4⟩ := Act.bind_eq_ok h3
      obtain ⟨ht4, hget⟩ := getChecked_transfer S hget
      obtain ⟨rest, t5, hrest, h5⟩ := Act.bind_eq_ok h4
      obtain ⟨ht5, hrest⟩ := subChecked_transfer S hrest
      obtain ⟨hext, hsame⟩ := onStore_ok h5
      rw [ht5, ht4, ht3] at hext hsame
      simp only [if_true]
      rw [Act.bind_ok (hadd _), Act.bind_ok (hget _), Act.bind_ok (hrest _), Act.bind_ok hext,
        hsame]
      have hprior : (⟨t.2.base, t2.2.marks⟩ : Prefix) = t2.2 := by rw [← hbase]
      cases r with
      | none => rfl
      | some crc =>
          show (Except.ok (some (crc, (⟨t.2.base, t2.2.marks⟩ : Prefix))), t'.1) = _
          rw [hprior]
          rfl

/-- `Prefix.span` is `span` in place, with the marks handed on as a value. -/
theorem span_inPlace {r : Option (BitVec 32)} {t' : S × Prefix}
    (h : Prefix.spanInPlace lo hi t = (.ok r, t')) (hlo : lo < 2 ^ 64) (hhi : hi < 2 ^ 64) :
    t.2.span lo hi t.1 = (.ok (r.map fun crc => (crc, t'.2)), t'.1) := by
  rw [Prefix.spanInPlace] at h
  obtain ⟨r1, t1, h1, h⟩ := Act.bind_eq_ok h
  rw [Prefix.span, Act.bind_ok (upTo_inPlace h1 hlo)]
  cases r1 with
  | none =>
      cases h
      rfl
  | some before =>
      obtain ⟨r2, t2, h2, h⟩ := Act.bind_eq_ok h
      simp only [Option.map_some]
      rw [Act.bind_ok (upTo_inPlace h2 hhi)]
      cases r2 with
      | none =>
          cases h
          rfl
      | some through =>
          obtain ⟨len, t3, hlen, h3⟩ := Act.bind_eq_ok h
          obtain ⟨ht3, hsub⟩ := subChecked_transfer S hlen
          rw [ht3] at h3
          simp only [Option.map_some]
          rw [Act.bind_ok (hsub _)]
          cases h3
          rfl

/-! ## Calls in any order -/

/-- A store that writes down what is read from it: offsets and lengths, the last first. -/
structure Logged (S : Type) where
  store : S
  reads : List (Nat × Nat)

namespace Logged

def inner {α : Type} (x : Act S Fault α) : Act (Logged S) Fault α :=
  Act.zoom Logged.store (fun l s => { l with store := s }) x

instance : WalStore (Logged S) where
  writeAt offset bytes := inner (WalStore.writeAt offset bytes)
  readAt offset n := fun l =>
    ((WalStore.readAt offset n l.store).1,
      ⟨(WalStore.readAt offset n l.store).2, (offset, n) :: l.reads⟩)
  truncate len := inner (WalStore.truncate len)
  sync := inner WalStore.sync
  len := inner WalStore.len
  head := inner WalStore.head
  truncateBefore offset := inner (WalStore.truncateBefore offset)

/-- Nothing outside `[base, hi)` was read. -/
def Within (P : S → Prop) (base hi : Nat) (l : Logged S) : Prop :=
  P l.store ∧ ∀ r ∈ l.reads, base ≤ r.1 ∧ r.1 + r.2 ≤ hi

theorem feeds (V : View img size P) (base : Nat) (h : hi ≤ size) :
    Feeds img base hi (Within P base hi) where
  read := by
    intro l off n hl hoff hfit
    obtain ⟨bs, s', hr, hP', hcase⟩ := (View.feeds V base h).read hl.1 hoff hfit
    refine ⟨bs, ⟨s', (off, n) :: l.reads⟩, ?_, ⟨hP', ?_⟩, hcase⟩
    · show ((WalStore.readAt off n l.store).1,
        (⟨(WalStore.readAt off n l.store).2, (off, n) :: l.reads⟩ : Logged S)) = _
      rw [hr]
    · intro r hmem
      rcases List.mem_cons.mp hmem with rfl | hold
      · exact ⟨hoff, hfit⟩
      · exact hl.2 r hold
  hi_lt := (View.feeds V base h).hi_lt

end Logged

/-- What is seen of one call: its result, what it read, and the marks it left. -/
structure Seen where
  result : Option (BitVec 32)
  reads : List (Nat × Nat)
  marks : List (BitVec 32)

/-- One call of `span`, with its own log. -/
def seeSpan (c : Nat × Nat) : Act (Logged S × Prefix) Fault Seen := do
  Act.modify fun t => ({ t.1 with reads := [] }, t.2)
  let result ← Prefix.spanInPlace c.1 c.2
  let t ← Act.get
  pure ⟨result, t.1.reads, t.2.marks⟩

/-- One call of `span` after another on one prefix. -/
def seeSpans : List (Nat × Nat) → Act (Logged S × Prefix) Fault (List Seen)
  | [] => pure []
  | c :: spans => do
      let seen ← seeSpan c
      let rest ← seeSpans spans
      pure (seen :: rest)

/-- A call that went right. -/
structure Right (img : Image UInt8) (base : Nat) (c : Nat × Nat) (seen : Seen) : Prop where
  tells : Tells img base c.1 c.2 seen.result
  reads : ∀ r ∈ seen.reads, base ≤ r.1 ∧ r.1 + r.2 ≤ c.2
  marks : MarksOk img base seen.marks

/-- Between calls, whatever the log holds. -/
def Resting (img : Image UInt8) (base : Nat) (P : S → Prop) (t : Logged S × Prefix) : Prop :=
  Kept img base (fun l : Logged S => P l.store) t

theorem seeSpan_right (V : View img size P) {c : Nat × Nat} (hbase : base ≤ c.1)
    (hle : c.1 ≤ c.2) (hhi : c.2 ≤ size) {t : Logged S × Prefix} (ht : Resting img base P t) :
    ∃ seen t', seeSpan c t = (.ok seen, t') ∧ Resting img base P t' ∧ Right img base c seen := by
  have hstart : Kept img base (Logged.Within P base c.2) ({ t.1 with reads := [] }, t.2) :=
    ⟨⟨ht.store, fun r hr => by cases hr⟩, ht.base_eq, ht.marks⟩
  obtain ⟨result, t', hrun, hkept, htells⟩ :=
    spanInPlace_eq (Logged.feeds V base hhi) hbase hle hstart
  refine ⟨⟨result, t'.1.reads, t'.2.marks⟩, t', ?_,
    ⟨hkept.store.1, hkept.base_eq, hkept.marks⟩, htells, hkept.store.2, hkept.marks⟩
  rw [seeSpan, Act.modify_bind, Act.bind_ok hrun]
  rfl

theorem seeSpans_right (V : View img size P) {spans : List (Nat × Nat)}
    (h : ∀ c ∈ spans, base ≤ c.1 ∧ c.1 ≤ c.2 ∧ c.2 ≤ size) {t : Logged S × Prefix}
    (ht : Resting img base P t) :
    ∃ seen t', seeSpans spans t = (.ok seen, t') ∧ List.Forall₂ (Right img base) spans seen := by
  induction spans generalizing t with
  | nil => exact ⟨[], t, rfl, .nil⟩
  | cons c spans ih =>
      obtain ⟨hbase, hle, hhi⟩ := h c List.mem_cons_self
      obtain ⟨one, t1, hone, ht1, hright⟩ := seeSpan_right V hbase hle hhi ht
      obtain ⟨rest, t2, hrest, hall⟩ := ih (fun d hd => h d (List.mem_cons_of_mem c hd)) ht1
      refine ⟨one :: rest, t2, ?_, .cons hright hall⟩
      rw [seeSpans, Act.bind_ok hone, Act.bind_ok hrest]
      rfl

/-- Spans asked for in any order on one prefix.

Every call ends with the checksum of its span or, only where a byte between the base and
the span's end is unreadable, with nothing; it has read nothing past the span's end; and
the marks it leaves, whether it found a checksum or not, are the checksums they stand
for.  Where every byte is readable, every call ends with the checksum. -/
theorem prefix_spans_right (V : View img size P) {s : S} (hP : P s) (base : Nat)
    (spans : List (Nat × Nat)) (h : ∀ c ∈ spans, base ≤ c.1 ∧ c.1 ≤ c.2 ∧ c.2 ≤ size) :
    ∃ seen t', seeSpans spans (⟨s, []⟩, Prefix.new base) = (.ok seen, t') ∧
      List.Forall₂ (Right img base) spans seen ∧
      ((∀ o, base ≤ o → o < size → img o ≠ none) →
        List.Forall₂ (fun c one => ∃ bs, img.read c.1 (c.2 - c.1) = some bs ∧
          one.result = some (crc32c bs)) spans seen) := by
  obtain ⟨seen, t', hrun, hall⟩ := seeSpans_right V h
    (t := (⟨s, []⟩, Prefix.new base)) ⟨hP, rfl, marksOk_new img base⟩
  refine ⟨seen, t', hrun, hall, fun hreadable => ?_⟩
  rw [List.forall₂_iff_get] at hall ⊢
  refine ⟨hall.1, fun i hi hj => ?_⟩
  have htells := (hall.2 i hi hj).tells
  obtain ⟨-, -, hhi⟩ := h _ (List.get_mem spans ⟨i, hi⟩)
  cases hresult : (seen.get ⟨i, hj⟩).result with
  | none =>
      rw [hresult] at htells
      obtain ⟨o, hlo, hlt, hnone⟩ := htells
      exact absurd hnone (hreadable o hlo (by omega))
  | some crc =>
      rw [hresult] at htells
      obtain ⟨bs, hread, rfl⟩ := htells
      exact ⟨bs, hread, rfl⟩

/-- On a store with one unreadable byte, far apart and out of order. -/
theorem prefix_spans_right_around_hole :
    let store : SparseStore :=
      ⟨List.replicate 5000 (some 7) ++ none :: List.replicate 100 (some 1), by
        simp only [List.length_append, List.length_cons, List.length_replicate]
        decide⟩
    ∃ seen t', seeSpans [(4100, 4999), (17, 18), (20, 5050), (17, 4113)]
        (⟨store, []⟩, Prefix.new 17) = (.ok seen, t') ∧
      List.Forall₂ (Right store.image 17) [(4100, 4999), (17, 18), (20, 5050), (17, 4113)] seen := by
  intro store
  have hlen : store.data.length = 5101 := by
    simp only [store, List.length_append, List.length_cons, List.length_replicate]
  have hspans : ∀ c ∈ [(4100, 4999), (17, 18), (20, 5050), (17, 4113)],
      17 ≤ c.1 ∧ c.1 ≤ c.2 ∧ c.2 ≤ store.data.length := by
    rw [hlen]
    decide
  obtain ⟨seen, t', hrun, hall, -⟩ :=
    prefix_spans_right store.view (rfl : store = store) 17 _ hspans
  exact ⟨seen, t', hrun, hall⟩

end Strict
end WalDb
