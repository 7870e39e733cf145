/-
What it costs to open a log.

Every offset after a damaged record is tried as a record start, and a record may be as
long as the store.  Checked one by one, the candidates of a long torn record would be read
over and over.  The window and the prefix checksums are there to prevent that, and here
their cost is added up: the scan and the check together ask for a number of bytes that
grows linearly with the length of the log, in reads of bounded size.

The argument is an amortised one.  A budget is fixed at the beginning, and `Terms.left k`
says that `k` bytes of it are still to be spent.  A mark that has been pushed is not read
again, so the marks to come are worth what lies between the last one and the end
(`unmarked`); a refill moves the end of the window at least half a window forward
(`unfilled`); and a candidate that does not fit the window reads less than two mark
intervals besides the marks, and lies more than half a window before the end (`unspanned`).

Nothing is assumed of the store.  It may return anything, fail or report any length.
-/
import WalDb.Portable
import WalDb.Strict.Marks

namespace WalDb
namespace Strict

open Lib Lib.Act Record

/-- The bytes a list of reads asks for. -/
def bytesAsked : List (Nat × Nat) → Nat
  | [] => 0
  | r :: reads => r.2 + bytesAsked reads

/-- Where reads may lie, how long one may be, and how many bytes all of them may ask
for. -/
structure Terms where
  lo : Nat
  hi : Nat
  cap : Nat
  budget : Nat

variable {S : Type} {T : Terms} {k : Nat} {l : Logged S}

/-- All reads so far were on these terms, and `k` bytes may still be asked for. -/
structure Terms.Left (T : Terms) (k : Nat) (l : Logged S) : Prop where
  within : ∀ r ∈ l.reads, T.lo ≤ r.1 ∧ r.1 + r.2 ≤ T.hi ∧ r.2 ≤ T.cap
  paid : bytesAsked l.reads + k ≤ T.budget

/-- A computation that stays within the terms, also where it fails. -/
def Terms.Bills {α : Type} (T : Terms) (x : Act (Logged S) Fault α) (l : Logged S)
    (Q : α → Logged S → Prop) : Prop :=
  x.Ends l Q fun _ => T.Left 0

namespace Terms

theorem Left.mono (h : T.Left k l) {j : Nat} (hle : j ≤ k) : T.Left j l :=
  ⟨h.within, by have := h.paid; omega⟩

theorem Left.none (h : T.Left k l) : T.Left 0 l := h.mono (Nat.zero_le k)

theorem addChecked_bills (h : T.Left k l) (a b : Nat) :
    T.Bills (addChecked a b) l fun c l' => T.Left k l' ∧ c = a + b := by
  unfold addChecked
  by_cases hlt : a + b < 2 ^ 64
  · rw [if_pos hlt]
    exact ends_pure ⟨h, rfl⟩
  · rw [if_neg hlt]
    exact ends_fail h.none

theorem subChecked_bills (h : T.Left k l) (a b : Nat) :
    T.Bills (subChecked a b) l fun c l' => T.Left k l' ∧ b ≤ a ∧ c = a - b := by
  unfold subChecked
  by_cases hle : b ≤ a
  · rw [if_pos hle]
    exact ends_pure ⟨h, hle, rfl⟩
  · rw [if_neg hle]
    exact ends_fail h.none

theorem sliceChecked_bills (h : T.Left k l) (bytes : List UInt8) (lo hi : Nat) :
    T.Bills (sliceChecked bytes lo hi) l fun _ => T.Left k := by
  unfold sliceChecked
  split
  · exact ends_pure h
  · exact ends_fail h.none

theorem getChecked_bills {α : Type} (h : T.Left k l) (xs : List α) (i : Nat) :
    T.Bills (getChecked xs i) l fun _ => T.Left k := by
  unfold getChecked
  cases xs[i]? with
  | none => exact ends_fail h.none
  | some a => exact ends_pure h

variable [WalStore S]

/-- A read is paid for, whatever the store returns. -/
theorem readAt_bills {off n : Nat} (h : T.Left (k + n) l) (hlo : T.lo ≤ off) (hhi : off + n ≤ T.hi)
    (hcap : n ≤ T.cap) : T.Bills (WalStore.readAt off n) l fun _ => T.Left k := by
  have hnew : T.Left k (WalStore.readAt off n l).2 := by
    refine ⟨fun r hr => ?_, ?_⟩
    · rcases List.mem_cons.mp hr with rfl | hold
      · exact ⟨hlo, hhi, hcap⟩
      · exact h.within r hold
    · have hpaid := h.paid
      show n + bytesAsked l.reads + k ≤ T.budget
      omega
  cases hrun : WalStore.readAt off n l with
  | mk r l' =>
      rw [hrun] at hnew
      cases r with
      | ok bs => exact ends_of_ok hrun hnew
      | error e => exact ends_of_error hrun hnew.none

end Terms

open Terms

/-! ## The prefix checksums -/

/-- What is left where a computation may have given up. -/
def Terms.LeftSome {α : Type} (T : Terms) (Q : α → Logged S → Prop) : Option α → Logged S → Prop
  | none => T.Left 0
  | some a => Q a

/-- The bytes between the last mark and `limit`. -/
def Prefix.unmarked (limit : Nat) (p : Prefix) : Nat :=
  limit - p.base - (p.marks.length - 1) * markInterval

section Cost

variable [WalStore S] {limit : Nat}

theorem extend_bills {lo len : Nat} (h : T.Left (k + len) l) (hlo : T.lo ≤ lo)
    (hhi : lo + len ≤ T.hi) (hcap : len ≤ T.cap) (crc : BitVec 32) :
    T.Bills (Prefix.extend crc lo len) l (T.LeftSome fun _ => T.Left k) := by
  refine (readAt_bills h hlo hhi hcap).bind fun scratch l1 h1 => ?_
  by_cases hshort : scratch.length < len
  · rw [if_pos hshort]
    exact ends_pure h1.none
  · rw [if_neg hshort]
    exact ends_pure h1

/-- Every mark is paid for by the bytes it covers. -/
theorem pushMarks_bills {base index : Nat} {marks : List (BitVec 32)} (hlo : T.lo ≤ base)
    (hfit : base + index * markInterval ≤ limit) (hhi : limit ≤ T.hi) (hcap : markInterval ≤ T.cap)
    (h : T.Left (k + Prefix.unmarked limit ⟨base, marks⟩) l) :
    T.Bills (Prefix.pushMarks base index marks) l
      (T.LeftSome fun marks' => T.Left (k + Prefix.unmarked limit ⟨base, marks'⟩)) := by
  induction hn : index + 1 - marks.length generalizing marks l with
  | zero =>
      rw [Prefix.pushMarks, if_neg (by omega)]
      exact ends_pure h
  | succ n ih =>
      rw [Prefix.pushMarks, if_pos (by omega)]
      refine (subChecked_bills h _ 1).bind fun last l1 h1 => ?_
      obtain ⟨h1, hpos, rfl⟩ := h1
      refine (getChecked_bills h1 _ _).bind fun seed l2 h2 => ?_
      refine (addChecked_bills h2 _ _).bind fun lo l3 h3 => ?_
      obtain ⟨h3, rfl⟩ := h3
      -- The new mark ends at `base + marks.length * markInterval`, before `limit`.
      have hmark : marks.length * markInterval ≤ index * markInterval :=
        Nat.mul_le_mul_right _ (by omega)
      have hlast : (marks.length - 1) * markInterval + markInterval = marks.length * markInterval := by
        rw [← Nat.succ_mul, Nat.succ_eq_add_one, Nat.sub_add_cancel hpos]
      have hprice : k + Prefix.unmarked limit ⟨base, marks⟩ =
          k + (limit - base - marks.length * markInterval) + markInterval := by
        unfold Prefix.unmarked
        dsimp only
        omega
      rw [hprice] at h3
      refine (extend_bills h3 (by omega) (by omega) hcap seed).bind fun crc l4 h4 => ?_
      cases crc with
      | none => exact ends_pure h4
      | some crc =>
          have hleft : T.Left (k + Prefix.unmarked limit ⟨base, marks ++ [crc]⟩) l4 := by
            refine h4.mono ?_
            unfold Prefix.unmarked
            simp
          refine ih hleft ?_
          rw [List.length_append, List.length_singleton]
          omega

/-- A checksum of an initial part: less than one interval, besides the marks. -/
theorem upTo_bills {p : Prefix} {pos : Nat} (hlo : T.lo ≤ p.base) (hpos : pos ≤ limit)
    (hhi : limit ≤ T.hi) (hcap : markInterval ≤ T.cap)
    (h : T.Left (k + (markInterval - 1) + p.unmarked limit) l) :
    T.Bills (p.upTo pos) l
      (T.LeftSome fun r l' => r.2.base = p.base ∧ T.Left (k + r.2.unmarked limit) l') := by
  refine (subChecked_bills h _ _).bind fun d l1 h1 => ?_
  obtain ⟨h1, hbase, rfl⟩ := h1
  have hdiv : (pos - p.base) / markInterval * markInterval +
      (pos - p.base) % markInterval = pos - p.base := Nat.div_add_mod' _ _
  have hmod : (pos - p.base) % markInterval < markInterval := Nat.mod_lt _ (by decide)
  dsimp only
  generalize (pos - p.base) / markInterval = index at hdiv
  generalize (pos - p.base) % markInterval = rest at hdiv hmod
  refine (pushMarks_bills hlo (by omega) hhi hcap h1).bind fun marks l2 h2 => ?_
  cases marks with
  | none => exact ends_pure h2
  | some marks =>
      refine (addChecked_bills h2 _ _).bind fun lo l3 h3 => ?_
      obtain ⟨h3, rfl⟩ := h3
      refine (getChecked_bills h3 _ _).bind fun seed l4 h4 => ?_
      refine (subChecked_bills h4 _ _).bind fun len l5 h5 => ?_
      obtain ⟨h5, -, rfl⟩ := h5
      have h6 : T.Left (k + Prefix.unmarked limit ⟨p.base, marks⟩ +
          (pos - (p.base + index * markInterval))) l5 := h5.mono (by omega)
      refine (extend_bills h6 (by omega) (by omega) (by omega) seed).bind fun crc l6 h7 => ?_
      cases crc with
      | none => exact ends_pure h7
      | some crc => exact ends_pure ⟨rfl, h7⟩

/-- The checksum of a span, however long it is. -/
theorem span_bills {p : Prefix} {lo hi : Nat} (hbase : T.lo ≤ p.base) (hlo : lo ≤ limit)
    (hle : hi ≤ limit) (hhi : limit ≤ T.hi) (hcap : markInterval ≤ T.cap)
    (h : T.Left (k + 2 * (markInterval - 1) + p.unmarked limit) l) :
    T.Bills (p.span lo hi) l
      (T.LeftSome fun r l' => r.2.base = p.base ∧ T.Left (k + r.2.unmarked limit) l') := by
  have h1 : T.Left (k + (markInterval - 1) + (markInterval - 1) + p.unmarked limit) l :=
    h.mono (by omega)
  refine (upTo_bills hbase hlo hhi hcap h1).bind fun r l1 h2 => ?_
  cases r with
  | none => exact ends_pure h2
  | some r =>
      obtain ⟨before, p1⟩ := r
      obtain ⟨hp1, h2⟩ := h2
      dsimp only at hp1 h2 ⊢
      rw [← hp1] at hbase
      refine (upTo_bills hbase hle hhi hcap h2).bind fun r l2 h3 => ?_
      cases r with
      | none => exact ends_pure h3
      | some r =>
          obtain ⟨through, p2⟩ := r
          obtain ⟨hp2, h3⟩ := h3
          refine (subChecked_bills h3 _ _).bind fun len l3 h4 => ?_
          exact ends_pure ⟨hp2.trans hp1, h4.1⟩

/-! ## The window -/

namespace Window

def last (w : Window) : Nat := w.start + w.bytes.length

/-- The window reaches half its length past `pos`, or to `limit`. -/
def Covers (w : Window) (pos limit : Nat) : Prop :=
  w.start ≤ pos ∧ (limit ≤ w.last ∨ windowLen / 2 ≤ w.last - pos)

/-- What refills still cost when the window ends at `e`. -/
def unfilled (limit e : Nat) : Nat :=
  2 * (limit - e) + if e < limit then windowLen / 2 - 1 else 0

theorem unfilled_end (limit : Nat) : unfilled limit limit = 0 := by
  unfold unfilled
  rw [Nat.sub_self, if_neg (Nat.lt_irrefl limit)]

/-- A refill is paid for by how far it moves the end of the window. -/
theorem unfilled_refill {limit e pos : Nat} (he : pos ≤ e) (hend : e < limit)
    (hclose : e - pos < windowLen / 2) :
    unfilled limit (pos + min (limit - pos) windowLen) + min (limit - pos) windowLen ≤
      unfilled limit e := by
  have hw : windowLen = 65536 := rfl
  by_cases hlast : limit - pos ≤ windowLen
  · rw [Nat.min_eq_left hlast, Nat.add_sub_cancel' (by omega), unfilled_end]
    unfold unfilled
    rw [if_pos hend]
    omega
  · rw [Nat.min_eq_right (by omega)]
    unfold unfilled
    rw [if_pos hend, if_pos (by omega)]
    omega

omit [WalStore S] in
theorem covers_bills (w : Window) {pos : Nat} (hstart : w.start ≤ pos) (h : T.Left k l) :
    T.Bills (w.covers pos limit) l fun covered l' => T.Left k l' ∧
      (covered = true → w.Covers pos limit) ∧
      (covered = false → pos ≤ w.last ∧ w.last < limit ∧ w.last - pos < windowLen / 2) := by
  unfold covers endAt
  rw [if_neg (by omega)]
  refine (addChecked_bills h _ _).bind fun e l1 h1 => ?_
  obtain ⟨h1, rfl⟩ := h1
  by_cases hend : limit ≤ w.start + w.bytes.length
  · rw [if_pos hend]
    refine ends_pure ⟨h1, fun _ => ⟨hstart, Or.inl hend⟩, ?_⟩
    intro hfalse
    cases hfalse
  · rw [if_neg hend]
    refine (subChecked_bills h1 _ _).bind fun ahead l2 h2 => ?_
    obtain ⟨h2, hpos, rfl⟩ := h2
    refine ends_pure ⟨h2, fun hahead => ⟨hstart, Or.inr (of_decide_eq_true hahead)⟩, ?_⟩
    intro hahead
    exact ⟨hpos, by unfold last; omega, Nat.lt_of_not_le (of_decide_eq_false hahead)⟩

/-- The window is ready for `pos`. -/
theorem ready_bills (w : Window) {pos : Nat} (hstart : w.start ≤ pos) (hlo : T.lo ≤ pos)
    (hhi : limit ≤ T.hi) (hcap : windowLen ≤ T.cap) (h : T.Left (k + unfilled limit w.last) l) :
    T.Bills (w.ready pos limit) l fun r l' => T.Left 0 l' ∧
      (r.2 = true → T.Left (k + unfilled limit r.1.last) l' ∧ r.1.Covers pos limit) := by
  refine (covers_bills w hstart h).bind fun covered l1 h1 => ?_
  obtain ⟨h1, hcovers, hrefill⟩ := h1
  cases covered with
  | true =>
      exact ends_pure ⟨h1.none, fun _ => ⟨h1, hcovers rfl⟩⟩
  | false =>
      obtain ⟨hpos, hend, hclose⟩ := hrefill rfl
      refine (subChecked_bills h1 _ _).bind fun left l2 h2 => ?_
      obtain ⟨h2, hle, rfl⟩ := h2
      have hprice := unfilled_refill hpos hend hclose
      have h3 : T.Left (k + unfilled limit (pos + min (limit - pos) windowLen) +
          min (limit - pos) windowLen) l2 := h2.mono (by omega)
      refine (readAt_bills h3 hlo (by omega) (by omega)).bind fun bytes l3 h4 => ?_
      refine ends_pure ⟨h4.none, fun hwhole => ?_⟩
      have hlen : bytes.length = min (limit - pos) windowLen := by simpa using hwhole
      refine ⟨?_, Nat.le_refl pos, ?_⟩
      · show T.Left (k + unfilled limit (pos + bytes.length)) l3
        rw [hlen]
        exact h4
      · show limit ≤ pos + bytes.length ∨ windowLen / 2 ≤ pos + bytes.length - pos
        have hw : windowLen = 65536 := rfl
        omega

omit [WalStore S] in
theorem header_bills (w : Window) (pos : Nat) (h : T.Left k l) :
    T.Bills (w.header pos) l fun _ => T.Left k :=
  (subChecked_bills h _ _).bind fun _ _ h1 => sliceChecked_bills h1.1 _ _ _

omit [WalStore S] in
/-- A candidate is not in the window only if it ends past it. -/
theorem slice_bills (w : Window) {lo hi : Nat} (hstart : w.start ≤ lo) (h : T.Left k l) :
    T.Bills (w.slice lo hi) l fun r l' => T.Left k l' ∧ (r = none → w.last < hi) := by
  unfold slice endAt
  rw [if_neg (by omega)]
  refine (addChecked_bills h _ _).bind fun e l1 h1 => ?_
  obtain ⟨h1, rfl⟩ := h1
  by_cases hend : w.start + w.bytes.length < hi
  · rw [if_pos hend]
    exact ends_pure ⟨h1, fun _ => hend⟩
  · rw [if_neg hend]
    refine (subChecked_bills h1 _ _).bind fun a l2 h2 => ?_
    refine (subChecked_bills h2.1 _ _).bind fun b l3 h3 => ?_
    refine (sliceChecked_bills h3.1 _ _ _).bind fun bytes l4 h4 => ?_
    refine ends_pure ⟨h4, ?_⟩
    intro hnone
    cases hnone

end Window

/-! ## The check -/

/-- What candidates that do not fit the window still cost, with `n` bytes to go. -/
def unspanned (n : Nat) : Nat := 2 * (markInterval - 1) * (n - windowLen / 2)

theorem unspanned_next {n : Nat} (h : windowLen / 2 < n) :
    unspanned n = unspanned (n - 1) + 2 * (markInterval - 1) := by
  have hless : n - windowLen / 2 = n - 1 - windowLen / 2 + 1 := by omega
  unfold unspanned
  rw [hless, Nat.mul_add, Nat.mul_one]

theorem unspanned_mono {n n' : Nat} (h : n ≤ n') : unspanned n ≤ unspanned n' :=
  Nat.mul_le_mul_left _ (Nat.sub_le_sub_right h _)

theorem candidate_bills {m pos : Nat} {w : Window} {p : Prefix} (hbase : T.lo ≤ p.base)
    (hhi : limit ≤ T.hi) (hcap : markInterval ≤ T.cap) (hcovers : w.Covers pos limit)
    (header : List UInt8) (h : T.Left (k + unspanned (limit - pos) + p.unmarked limit) l) :
    T.Bills (candidate m limit w p pos header) l
      (T.LeftSome fun r l' => r.2.base = p.base ∧
        T.Left (k + unspanned (limit - pos - 1) + r.2.unmarked limit) l') := by
  have hnext := unspanned_mono (Nat.sub_le (limit - pos) 1)
  unfold candidate
  dsimp only
  refine (subChecked_bills h _ _).bind fun left l1 h1 => ?_
  obtain ⟨h1, hle, rfl⟩ := h1
  refine (subChecked_bills h1 _ _).bind fun room l2 h2 => ?_
  obtain ⟨h2, hroom, rfl⟩ := h2
  by_cases hfits : (parseHeader header).len ≤ m ∧ (parseHeader header).len ≤ limit - pos - headerLen
  · rw [if_pos hfits]
    refine (addChecked_bills h2 _ _).bind fun payloadStart l3 h3 => ?_
    obtain ⟨h3, rfl⟩ := h3
    refine (addChecked_bills h3 _ _).bind fun recordEnd l4 h4 => ?_
    obtain ⟨h4, rfl⟩ := h4
    have hstart : w.start ≤ pos + headerLen := Nat.le_trans hcovers.1 (Nat.le_add_right _ _)
    refine (Window.slice_bills w hstart h4).bind fun payload l5 h5 => ?_
    obtain ⟨h5, hpast⟩ := h5
    cases payload with
    | some payload => exact ends_pure ⟨rfl, h5.mono (by dsimp only; omega)⟩
    | none =>
        -- The record ends past the window, so half a window lies between here and there.
        have hlong := hpast rfl
        have hfar : windowLen / 2 < limit - pos := by
          have hahead := hcovers.2
          have hw : windowLen = 65536 := rfl
          omega
        have h6 : T.Left (k + unspanned (limit - pos - 1) + 2 * (markInterval - 1) +
            p.unmarked limit) l5 := h5.mono (by rw [unspanned_next hfar]; omega)
        have h8 : headerLen = 8 := rfl
        have h4 : lenOffset = 4 := rfl
        refine (span_bills hbase (by omega) (by omega) hhi hcap h6).bind fun r l6 h7 => ?_
        cases r with
        | none => exact ends_pure h7
        | some r => exact ends_pure h7
  · rw [if_neg hfits]
    exact ends_pure ⟨rfl, h2.mono (by dsimp only; omega)⟩

/-- The whole loop. -/
theorem classifyFrom_bills {m pos : Nat} {w : Window} {p : Prefix} (hbase : T.lo ≤ p.base)
    (hpos : T.lo ≤ pos) (hstart : w.start ≤ pos) (hhi : limit ≤ T.hi) (hcap : windowLen ≤ T.cap)
    (h : T.Left (unspanned (limit - pos) + p.unmarked limit + Window.unfilled limit w.last) l) :
    T.Bills (classifyFrom m limit w p pos) l fun _ => T.Left 0 := by
  have hmark : markInterval ≤ T.cap := Nat.le_trans (by decide) hcap
  induction hn : limit - pos using Nat.strong_induction_on generalizing w p pos l with
  | _ n ih =>
      subst hn
      rw [classifyFrom]
      by_cases hmore : headerLen ≤ limit - pos
      · rw [if_pos hmore]
        refine (Window.ready_bills w hstart hpos hhi hcap h).bind fun r l1 h1 => ?_
        obtain ⟨w1, whole⟩ := r
        obtain ⟨hnone, hready⟩ := h1
        cases whole with
        | false => exact ends_pure hnone
        | true =>
            obtain ⟨h1, hcovers⟩ := hready rfl
            refine (Window.header_bills w1 pos h1).bind fun header l2 h2 => ?_
            have h3 : T.Left (Window.unfilled limit w1.last + unspanned (limit - pos) +
                p.unmarked limit) l2 := h2.mono (by dsimp only; omega)
            refine (candidate_bills hbase hhi hmark hcovers header h3).bind fun r l3 h4 => ?_
            cases r with
            | none => exact ends_pure h4
            | some r =>
                obtain ⟨intact, p1⟩ := r
                obtain ⟨hp1, h4⟩ := h4
                cases intact with
                | true => exact ends_pure h4.none
                | false =>
                    refine (addChecked_bills h4 pos 1).bind fun _ l4 h5 => ?_
                    have h8 : headerLen = 8 := rfl
                    have hnext : limit - (pos + 1) = limit - pos - 1 := by omega
                    refine ih (limit - (pos + 1)) (by omega) (by rw [hp1]; exact hbase) (by omega)
                      (Nat.le_succ_of_le hcovers.1) ?_ rfl
                    exact h5.1.mono (by rw [hnext]; dsimp only; omega)
      · rw [if_neg hmore]
        exact ends_pure h.none

theorem streamCrc_bills {recordEnd : Nat} (hhi : recordEnd ≤ T.hi) (hcap : markInterval ≤ T.cap)
    (crc : BitVec 32) {lo : Nat} (hlo : T.lo ≤ lo) (h : T.Left (k + (recordEnd - lo)) l) :
    T.Bills (streamCrc crc lo recordEnd) l fun _ => T.Left k := by
  induction hn : recordEnd - lo using Nat.strong_induction_on generalizing crc lo l with
  | _ n ih =>
      subst hn
      rw [streamCrc]
      by_cases hmore : lo < recordEnd
      · rw [if_pos hmore]
        have hstep : min (recordEnd - lo) markInterval ≤ recordEnd - lo := Nat.min_le_left _ _
        have hpos : 0 < min (recordEnd - lo) markInterval :=
          Nat.lt_min.mpr ⟨by omega, by decide⟩
        have hmark : min (recordEnd - lo) markInterval ≤ markInterval := Nat.min_le_right _ _
        dsimp only
        generalize min (recordEnd - lo) markInterval = len at hstep hpos hmark
        have h1 : T.Left (k + (recordEnd - (lo + len)) + len) l := h.mono (by omega)
        refine (readAt_bills h1 hlo (by omega) (by omega)).bind fun buf l1 h2 => ?_
        by_cases hshort : buf.length < len
        · rw [if_pos hshort]
          exact ends_pure (h2.mono (by omega))
        · rw [if_neg hshort]
          refine (addChecked_bills h2 lo len).bind fun _ l2 h3 => ?_
          exact ih (recordEnd - (lo + len)) (by omega) _ (by omega) h3.1 rfl
      · rw [if_neg hmore]
        exact ends_pure (h.mono (by omega))

/-- A record that was only too long is read once. -/
theorem oversized_bills {m pos : Nat} (hlo : T.lo ≤ pos) (hhi : limit ≤ T.hi)
    (hcap : markInterval ≤ T.cap) (h : T.Left (k + (limit - pos)) l) :
    T.Bills (oversized m pos limit) l fun _ => T.Left k := by
  have h8 : headerLen = 8 := rfl
  have hmark : markInterval = 4096 := rfl
  unfold oversized
  by_cases hshort : limit - pos < headerLen
  · rw [if_pos hshort]
    exact ends_pure (h.mono (by omega))
  rw [if_neg hshort]
  have h1 : T.Left (k + (limit - (pos + headerLen)) + headerLen) l := h.mono (by omega)
  refine (readAt_bills h1 hlo (by omega) (by omega)).bind fun header l1 h2 => ?_
  have hstop : T.Left k l1 := h2.mono (by omega)
  by_cases htorn : header.length < headerLen
  · rw [if_pos htorn]
    exact ends_pure hstop
  rw [if_neg htorn]
  dsimp only
  refine (addChecked_bills h2 pos headerLen).bind fun payloadStart l2 h3 => ?_
  obtain ⟨h3, rfl⟩ := h3
  by_cases hsmall : (parseHeader header).len ≤ m
  · rw [if_pos hsmall]
    exact ends_pure (h3.mono (by omega))
  rw [if_neg hsmall]
  refine (subChecked_bills h3 _ _).bind fun room l3 h4 => ?_
  obtain ⟨h4, hle, rfl⟩ := h4
  by_cases hroom : limit - (pos + headerLen) < (parseHeader header).len
  · rw [if_pos hroom]
    exact ends_pure (h4.mono (by omega))
  rw [if_neg hroom]
  refine (addChecked_bills h4 _ _).bind fun recordEnd l4 h5 => ?_
  obtain ⟨h5, rfl⟩ := h5
  have h6 : T.Left (k + (pos + headerLen + (parseHeader header).len - (pos + headerLen))) l4 :=
    h5.mono (by omega)
  refine (streamCrc_bills (by omega) hcap _ (by omega) h6).bind fun crc l5 h7 => ?_
  cases crc with
  | none => exact ends_pure h7
  | some crc => exact ends_pure h7

/-- What the check may ask for, with `n` bytes from the damage to the end. -/
def checkCost (n : Nat) : Nat := 4 * n + (windowLen / 2 - 1) + unspanned n

theorem classify_bills (m : Nat) {damaged : Nat} (hlo : T.lo ≤ damaged) (hhi : limit ≤ T.hi)
    (hcap : windowLen ≤ T.cap) (h : T.Left (checkCost (limit - damaged)) l) :
    T.Bills (classify m damaged limit) l fun _ => T.Left 0 := by
  have hmark : markInterval ≤ T.cap := Nat.le_trans (by decide) hcap
  have h1 : T.Left (3 * (limit - damaged) + (windowLen / 2 - 1) + unspanned (limit - damaged) +
      (limit - damaged)) l := h.mono (by unfold checkCost; omega)
  refine (oversized_bills hlo hhi hmark h1).bind fun tail l1 h2 => ?_
  cases tail with
  | some tail => exact ends_pure h2.none
  | none =>
      cases hfirst : checkedAdd damaged 1 with
      | none => exact ends_pure h2.none
      | some first =>
          obtain ⟨rfl, -⟩ := checkedAdd_eq_some hfirst
          have hspan := unspanned_mono (show limit - (damaged + 1) ≤ limit - damaged by omega)
          refine classifyFrom_bills (Nat.le_succ_of_le hlo) (Nat.le_succ_of_le hlo)
            (Nat.le_refl _) hhi hcap (h2.mono ?_)
          have hfill : Window.unfilled limit (Window.new (damaged + 1)).last ≤
              2 * (limit - damaged) + (windowLen / 2 - 1) := by
            show Window.unfilled limit (damaged + 1 + 0) ≤ _
            unfold Window.unfilled
            split <;> omega
          have hmarks : (Prefix.new (damaged + 1)).unmarked limit ≤ limit - damaged := by
            show limit - (damaged + 1) - 0 * markInterval ≤ _
            omega
          omega

end Cost

end Strict

/-! ## The open -/

section Opening

open Lib Lib.Act Record Strict Strict.Terms

variable {S : Type} [WalStore S] {T : Terms} {k m : Nat} {l : Logged S}

/-- One round asks for the record that it moves past, or for one that is too long. -/
theorem scanStep_bills {offset : Nat} (hlo : T.lo ≤ offset) (hhi : offset + headerLen + m ≤ T.hi)
    (hhead : headerLen ≤ T.cap) (hcap : m ≤ T.cap) (h : T.Left (k + (headerLen + m)) l) :
    T.Bills (scanStep m offset) l fun r l' => T.Left k l' ∧
      ∀ next, r = some next → T.Left (k + (headerLen + m - (next - offset))) l' := by
  have hnone : ∀ {l' : Logged S}, T.Left k l' → T.Left k l' ∧ ∀ next, none = some next →
      T.Left (k + (headerLen + m - (next - offset))) l' := fun h' => ⟨h', by simp⟩
  unfold scanStep
  have h1 : T.Left (k + m + headerLen) l := h.mono (by omega)
  refine (readAt_bills h1 hlo (by omega) hhead).bind fun header l1 h2 => ?_
  by_cases hshort : header.length < headerLen
  · rw [if_pos hshort]
    exact ends_pure (hnone (h2.mono (by omega)))
  rw [if_neg hshort]
  dsimp only
  by_cases hbig : m < (parseHeader header).len
  · rw [if_pos hbig]
    exact ends_pure (hnone (h2.mono (by omega)))
  rw [if_neg hbig]
  cases hstart : checkedAdd offset headerLen with
  | none => exact ends_pure (hnone (h2.mono (by omega)))
  | some payloadStart =>
      obtain ⟨rfl, -⟩ := checkedAdd_eq_some hstart
      have h3 : T.Left (k + (m - (parseHeader header).len) + (parseHeader header).len) l1 :=
        h2.mono (by omega)
      refine (readAt_bills h3 (by omega) (by omega) (by omega)).bind fun payload l2 h4 => ?_
      have hstop : T.Left k l2 := h4.mono (by omega)
      by_cases htorn : payload.length < (parseHeader header).len
      · rw [if_pos htorn]
        exact ends_pure (hnone hstop)
      rw [if_neg htorn]
      by_cases hbad : verify header payload (parseHeader header).crc = false
      · rw [if_pos hbad]
        exact ends_pure (hnone hstop)
      rw [if_neg hbad]
      refine ends_pure ⟨hstop, ?_⟩
      intro next hnext
      obtain ⟨rfl, -⟩ := checkedAdd_eq_some hnext
      exact h4.mono (by omega)

/-- The scan, with `g n` reserved for what comes after it when `n` bytes are left. -/
theorem scan_bills {physical offset : Nat} {g : Nat → Nat} (hg : ∀ n d, g n + d ≤ g (n + d))
    (hlo : T.lo ≤ offset) (hhi : physical + headerLen + m ≤ T.hi) (hhead : headerLen ≤ T.cap)
    (hcap : m ≤ T.cap) (h : T.Left (g (physical - offset) + (headerLen + m)) l) :
    T.Bills (scan m physical offset) l fun endAt l' => T.Left 0 l' ∧ T.lo ≤ endAt ∧
      (endAt < physical → T.Left (g (physical - endAt)) l') := by
  induction hn : physical - offset using Nat.strong_induction_on generalizing offset l with
  | _ n ih =>
      subst hn
      by_cases hlt : offset < physical
      · rcases (scanStep_bills hlo (by omega) hhead hcap h).cases with
          ⟨r, l1, hrun, hstop, hgo⟩ | ⟨e, l1, hrun, h1⟩
        · cases r with
          | none => exact ends_of_ok (scan_break hlt hrun) ⟨hstop.none, hlo, fun _ => hstop⟩
          | some next =>
              have hgt := scanStep_gt hrun
              have hnext := hgo next rfl
              unfold Bills Ends
              rw [scan_next hlt hrun]
              by_cases hin : next ≤ physical
              · -- What was reserved for the record pays for it.
                have hpay := hg (physical - next) (next - offset)
                rw [show physical - next + (next - offset) = physical - offset by omega] at hpay
                exact ih (physical - next) (by omega) (by omega) (hnext.mono (by omega)) rfl
              · rw [scan_past (by omega)]
                exact ⟨hstop.none, by omega, fun h => absurd h (by omega)⟩
        · exact ends_of_error (scan_error hlt hrun) h1
      · exact ends_of_ok (scan_past hlt l) ⟨h.none, hlo, fun h => absurd h hlt⟩

/-- Truncating reads nothing. -/
theorem truncate_bills (h : T.Left k l) (len : Nat) :
    T.Bills (WalStore.truncate len) l fun _ => T.Left 0 := by
  have hnew : T.Left 0 (WalStore.truncate len l).2 := ⟨h.none.within, h.none.paid⟩
  cases hrun : WalStore.truncate len l with
  | mk r l' =>
      rw [hrun] at hnew
      cases r with
      | ok u => exact ends_of_ok hrun hnew
      | error e => exact ends_of_error hrun hnew

/-- What the policy asks for after the scan. -/
def tailCost (config : WalConfig) (n : Nat) : Nat :=
  if config.openPolicy = .strict then checkCost n else n

theorem tailCost_add (config : WalConfig) (n d : Nat) :
    tailCost config n + d ≤ tailCost config (n + d) := by
  unfold tailCost
  split
  · have := unspanned_mono (Nat.le_add_right n d)
    unfold checkCost
    omega
  · omega

theorem cutTail_bills (config : WalConfig) {offset physical : Nat} (hlo : T.lo ≤ offset)
    (hhi : physical ≤ T.hi) (hcap : windowLen ≤ T.cap)
    (h : T.Left (tailCost config (physical - offset)) l) :
    T.Bills (cutTail config offset physical) l fun _ => T.Left 0 := by
  unfold cutTail
  by_cases hstrict : config.openPolicy = .strict
  · rw [if_pos hstrict]
    rw [tailCost, if_pos hstrict] at h
    refine (classify_bills _ hlo hhi hcap h).bind fun tail l1 h1 => ?_
    cases tail with
    | torn => exact truncate_bills h1 _
    | intactAfter => exact ends_fail h1
    | unreadable => exact ends_fail h1
    | oversized => exact ends_fail h1
  · rw [if_neg hstrict]
    exact truncate_bills h _

/-- The terms of an open from `head`, where the store reports the length `physical`. -/
def openTerms (config : WalConfig) (head physical : Nat) : Terms where
  lo := head
  hi := physical + (headerLen + config.maxRecordSize)
  cap := max windowLen config.maxRecordSize
  budget := tailCost config (physical - head) + (headerLen + config.maxRecordSize)

theorem recover_bills (config : WalConfig) (head : Nat) {s s' : S} {physical : Nat}
    (hlen : WalStore.len s = (.ok physical, s')) :
    (openTerms config head physical).Bills (recover config head) ⟨s, []⟩ fun _ =>
      (openTerms config head physical).Left 0 := by
  have hbudget : (openTerms config head physical).Left
      (tailCost config (physical - head) + (headerLen + config.maxRecordSize))
      (⟨s', []⟩ : Logged S) := ⟨by simp, by simp [bytesAsked, openTerms]⟩
  have hrun : (WalStore.len : Act (Logged S) Fault Nat) ⟨s, []⟩ = (.ok physical, ⟨s', []⟩) := by
    show ((WalStore.len s).1, (⟨(WalStore.len s).2, []⟩ : Logged S)) = _
    rw [hlen]
  have hwindow : windowLen ≤ (openTerms config head physical).cap := Nat.le_max_left _ _
  have hrecord : config.maxRecordSize ≤ (openTerms config head physical).cap := Nat.le_max_right _ _
  unfold recover Bills Ends
  rw [bind_ok hrun]
  refine (scan_bills (tailCost_add config) (Nat.le_refl _) (Nat.le_of_eq (Nat.add_assoc _ _ _))
    (Nat.le_trans (by decide) hwindow) hrecord hbudget).bind fun endAt l1 h1 => ?_
  obtain ⟨h0, hge, hleft⟩ := h1
  by_cases hshort : endAt < physical
  · rw [if_pos hshort]
    refine (cutTail_bills config hge (Nat.le_add_right _ _) hwindow (hleft hshort)).bind
      fun _ l2 h2 => ?_
    exact ends_pure h2
  · rw [if_neg hshort]
    exact ends_pure h0

/-- The store that writes its reads down, next to the one that does not. -/
def Strict.Logged.Is (l : Logged S) (s : S) : Prop := l.store = s

omit [WalStore S] in
theorem Strict.Logged.lockstep {α : Type} {x : Act (Logged S) Fault α} {y : Act S Fault α}
    (h : ∀ l : Logged S, ((x l).1, (x l).2.store) = y l.store) : Lockstep Logged.Is Logged.Is x y := by
  intro l s hls
  have hls : l.store = s := hls
  rw [← hls, ← h l]
  exact ⟨rfl, rfl⟩

/-- Writing the reads down changes nothing else. -/
theorem Strict.Logged.recover_lockstep (config : WalConfig) (head : Nat) :
    Lockstep Logged.Is Logged.Is (recover config head : Act (Logged S) Fault Recovered)
      (recover config head) := by
  have hread : ReadsAlike (fun _ => True) (Logged.Is : Logged S → S → Prop) :=
    ⟨fun _ _ => trivial, fun off n _ => Logged.lockstep fun l => rfl⟩
  have htruncate : ∀ len, Lockstep Logged.Is Logged.Is
      (WalStore.truncate len : Act (Logged S) Fault _) (WalStore.truncate len) :=
    fun len => Logged.lockstep fun l => rfl
  have hlen : Lockstep Logged.Is Logged.Is (WalStore.len : Act (Logged S) Fault _) WalStore.len :=
    Logged.lockstep fun l => rfl
  refine hlen.seq fun physical => (scan_lockstep hread trivial _).seq fun offset => ?_
  refine lockstep_ite (fun _ => Lockstep.seq ?_ fun _ => lockstep_pure _) fun _ => lockstep_pure _
  refine lockstep_ite (fun _ => ?_) fun _ => htruncate offset
  refine (classify_lockstep hread _ _ trivial).seq fun tail => ?_
  cases tail with
  | torn => exact htruncate offset
  | intactAfter => exact lockstep_fail _
  | unreadable => exact lockstep_fail _
  | oversized => exact lockstep_fail _

/-- Opening a log reads little, whatever the store holds and returns.

With `n` bytes from the head to the length that the store reports, the open asks for no more
than `n + 8 + m` bytes, `m` being the largest record size; under the strict policy, for no
more than `4 n + 32775 + m` bytes and another 8190 for every byte by which `n` exceeds half a
window.  No read is longer than a window or a record.  All of them start at or after the
head and none reaches further past the end than one record; a store whose length cannot be
told is not read at all. -/
theorem opening_reads_linear (config : WalConfig) (head : Nat) (s : S) :
    let run := recover config head (⟨s, []⟩ : Logged S)
    (run.1, run.2.store) = recover config head s ∧
    (∀ fault, (WalStore.len s).1 = .error fault → run.2.reads = []) ∧
    ∀ physical, (WalStore.len s).1 = .ok physical →
      (∀ r ∈ run.2.reads, head ≤ r.1 ∧ r.1 + r.2 ≤ physical + 8 + config.maxRecordSize ∧
        r.2 ≤ max 65536 config.maxRecordSize) ∧
      (config.openPolicy = .truncateTail →
        bytesAsked run.2.reads ≤ physical - head + 8 + config.maxRecordSize) ∧
      bytesAsked run.2.reads ≤ 4 * (physical - head) + 8190 * (physical - head - 32768) + 32775 +
        config.maxRecordSize := by
  intro run
  refine ⟨?_, ?_, ?_⟩
  · obtain ⟨hres, hpost⟩ := Logged.recover_lockstep config head (⟨s, []⟩ : Logged S) s rfl
    exact Prod.ext hres hpost
  · intro fault hfault
    have hrun : (WalStore.len : Act (Logged S) Fault Nat) ⟨s, []⟩ =
        (.error fault, ⟨(WalStore.len s).2, []⟩) := Prod.ext hfault rfl
    show (recover config head (⟨s, []⟩ : Logged S)).2.reads = []
    rw [recover, bind_error hrun]
  · intro physical hphysical
    have hbills := recover_bills config head (Prod.ext hphysical rfl :
      WalStore.len s = (.ok physical, (WalStore.len s).2))
    have hleft : (openTerms config head physical).Left 0 run.2 := by
      rcases hbills.cases with ⟨a, l, hrun, hl⟩ | ⟨e, l, hrun, hl⟩
      · rw [show run.2 = l from congrArg Prod.snd hrun]
        exact hl
      · rw [show run.2 = l from congrArg Prod.snd hrun]
        exact hl
    have hpaid : bytesAsked run.2.reads ≤
        tailCost config (physical - head) + (8 + config.maxRecordSize) := hleft.paid
    refine ⟨fun r hr => ?_, fun htruncate => ?_, ?_⟩
    · have hwithin : head ≤ r.1 ∧ r.1 + r.2 ≤ physical + (8 + config.maxRecordSize) ∧
          r.2 ≤ max 65536 config.maxRecordSize := hleft.within r hr
      omega
    · rw [tailCost, if_neg (by rw [htruncate]; decide)] at hpaid
      omega
    · have hcheck : tailCost config (physical - head) ≤
          4 * (physical - head) + 32767 + 8190 * (physical - head - 32768) := by
        show (if config.openPolicy = .strict then
          4 * (physical - head) + 32767 + 8190 * (physical - head - 32768) else physical - head) ≤ _
        split <;> omega
      omega

/-- A record followed by ten bytes of a torn one, opened under the strict policy.  The last
read comes first: one fills the window, one looks for an oversized record, and four are the
scan's. -/
theorem opening_reads_linear_torn_tail :
    let mem : MemStore := ⟨frame [7] ++ [0, 0, 0, 0, 1, 0, 0, 0, 9, 9], by decide +kernel⟩
    let config : WalConfig := ⟨100, .stopAtFirstError, .strict, by decide⟩
    let run := recover config 0 (⟨mem, []⟩ : Logged MemStore)
    run.2.reads = [(10, 9), (9, 8), (17, 1), (9, 8), (8, 1), (0, 8)] ∧
      bytesAsked run.2.reads ≤ 4 * 19 + 8190 * (19 - 32768) + 32775 + 100 := by
  intro mem config run
  have hphysical : (WalStore.len mem).1 = .ok 19 := by decide +kernel
  exact ⟨by decide +kernel, ((opening_reads_linear config 0 mem).2.2 19 hphysical).2.2⟩

end Opening

end WalDb
