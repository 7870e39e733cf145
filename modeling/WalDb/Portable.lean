/-
A log answers the same whatever store it stands on.

Nothing in the log looks at a store except through its calls.  If two stores answer the
same calls alike, then so does the open scan, the strict check behind it, the iterator
and every call of a log over the one and over the other, whatever the bytes are and
whatever the arguments.  Here this is shown for any store against the one in memory,
which is the simplest: a list of bytes.
-/
import WalDb.Lib.Lockstep
import WalDb.IsEmpty

namespace WalDb

open Lib Lib.Act Record

/-! ## Reading -/

section Checked

variable {S T : Type} {R : S → T → Prop}

theorem addChecked_lockstep (a b : Nat) :
    Lockstep R R (addChecked a b : Act S Fault Nat) (addChecked a b) :=
  lockstep_ite (fun _ => lockstep_pure _) fun _ => lockstep_fail _

theorem subChecked_lockstep (a b : Nat) :
    Lockstep R R (subChecked a b : Act S Fault Nat) (subChecked a b) :=
  lockstep_ite (fun _ => lockstep_pure _) fun _ => lockstep_fail _

/-- A sum that is used. -/
theorem addChecked_seq {β : Type} {a b : Nat} {f : Nat → Act S Fault β} {g : Nat → Act T Fault β}
    (h : Lockstep R R (f (a + b)) (g (a + b))) :
    Lockstep R R (addChecked a b >>= f) (addChecked a b >>= g) := by
  unfold addChecked
  split
  · exact h
  · exact lockstep_fail _

/-- A difference that is used. -/
theorem subChecked_seq {β : Type} {a b : Nat} {f : Nat → Act S Fault β} {g : Nat → Act T Fault β}
    (h : b ≤ a → Lockstep R R (f (a - b)) (g (a - b))) :
    Lockstep R R (subChecked a b >>= f) (subChecked a b >>= g) := by
  unfold subChecked
  split
  · rename_i hle
    exact h hle
  · exact lockstep_fail _

theorem sliceChecked_lockstep (bytes : List UInt8) (lo hi : Nat) :
    Lockstep R R (sliceChecked bytes lo hi : Act S Fault _) (sliceChecked bytes lo hi) :=
  lockstep_ite (fun _ => lockstep_pure _) fun _ => lockstep_fail _

theorem getChecked_lockstep {α : Type} (xs : List α) (i : Nat) :
    Lockstep R R (getChecked xs i : Act S Fault α) (getChecked xs i) := by
  unfold getChecked
  cases xs[i]? with
  | some a => exact lockstep_pure a
  | none => exact lockstep_fail _

namespace Strict

theorem Window.endAt_lockstep (w : Window) :
    Lockstep R R (w.endAt : Act S Fault _) (w.endAt : Act T Fault _) := addChecked_lockstep _ _

theorem Window.covers_lockstep (w : Window) (pos limit : Nat) :
    Lockstep R R (w.covers pos limit : Act S Fault _) (w.covers pos limit : Act T Fault _) := by
  unfold Window.covers
  refine lockstep_ite (fun _ => lockstep_pure _) fun _ => (w.endAt_lockstep).seq fun e => ?_
  refine lockstep_ite (fun _ => lockstep_pure _) fun _ => ?_
  exact (subChecked_lockstep _ _).seq fun ahead => lockstep_pure _

theorem Window.header_lockstep (w : Window) (pos : Nat) :
    Lockstep R R (w.header pos : Act S Fault _) (w.header pos : Act T Fault _) :=
  (subChecked_lockstep _ _).seq fun _ => sliceChecked_lockstep _ _ _

theorem Window.slice_lockstep (w : Window) (lo hi : Nat) :
    Lockstep R R (w.slice lo hi : Act S Fault _) (w.slice lo hi : Act T Fault _) := by
  unfold Window.slice
  refine lockstep_ite (fun _ => lockstep_pure _) fun _ => (w.endAt_lockstep).seq fun e => ?_
  refine lockstep_ite (fun _ => lockstep_pure _) fun _ => (subChecked_lockstep _ _).seq fun a => ?_
  exact (subChecked_lockstep _ _).seq fun b => (sliceChecked_lockstep _ _ _).seq fun _ => lockstep_pure _

end Strict

end Checked

/-- Two stores whose reads cannot be told apart, as long as they are empty or end in
`reach`. -/
structure ReadsAlike {S T : Type} [WalStore S] [WalStore T] (reach : Nat → Prop)
    (R : S → T → Prop) : Prop where
  down : ∀ {a b : Nat}, a ≤ b → reach b → reach a
  readAt : ∀ off n, n = 0 ∨ reach (off + n) →
    Lockstep R R (WalStore.readAt off n : Act S Fault _) (WalStore.readAt off n : Act T Fault _)

section Reading

variable {S T : Type} [WalStore S] [WalStore T] {R : S → T → Prop} {reach : Nat → Prop}

theorem ReadsAlike.read (A : ReadsAlike reach R) {limit : Nat} (h : reach limit) {off n : Nat}
    (hle : off + n ≤ limit) :
    Lockstep R R (WalStore.readAt off n : Act S Fault _) (WalStore.readAt off n : Act T Fault _) :=
  A.readAt off n (Or.inr (A.down hle h))

variable (A : ReadsAlike reach R)

include A

/-! ### The open scan -/

theorem scanStep_lockstep {m offset : Nat} (hreach : reach (offset + headerLen + m)) :
    Lockstep R R (scanStep m offset : Act S Fault _) (scanStep m offset : Act T Fault _) := by
  unfold scanStep
  refine (A.read hreach (Nat.le_add_right _ _)).seq fun header =>
    lockstep_ite (fun _ => lockstep_pure _) fun _ => ?_
  refine lockstep_ite (fun _ => lockstep_pure _) fun hlen => ?_
  cases hstart : checkedAdd offset headerLen with
  | none => exact lockstep_pure _
  | some payloadStart =>
      obtain ⟨rfl, -⟩ := checkedAdd_eq_some hstart
      refine (A.read hreach (by omega)).seq fun payload =>
        lockstep_ite (fun _ => lockstep_pure _) fun _ => ?_
      exact lockstep_ite (fun _ => lockstep_pure _) fun _ => lockstep_pure _

theorem scan_lockstep {m physical : Nat} (hreach : reach (physical + headerLen + m)) (offset : Nat) :
    Lockstep R R (scan m physical offset : Act S Fault _) (scan m physical offset : Act T Fault _) := by
  intro s t hR
  -- Every round that goes on is nearer to the end.
  induction hn : physical - offset using Nat.strongRecOn generalizing offset s t with
  | ind n ih =>
      by_cases hlt : offset < physical
      · obtain ⟨hres, hpost⟩ := scanStep_lockstep A
          (A.down (show offset + headerLen + m ≤ physical + headerLen + m by omega) hreach) s t hR
        cases hs : scanStep m offset s with
        | mk r s' =>
            cases ht : scanStep m offset t with
            | mk r' t' =>
                rw [hs, ht] at hres hpost
                dsimp only at hres hpost
                subst hres
                cases r with
                | error fault =>
                    rw [scan_error hlt hs, scan_error hlt ht]
                    exact ⟨rfl, hpost⟩
                | ok next =>
                    cases next with
                    | none =>
                        rw [scan_break hlt hs, scan_break hlt ht]
                        exact ⟨rfl, hpost⟩
                    | some next =>
                        have hgt := scanStep_gt hs
                        rw [scan_next hlt hs, scan_next hlt ht]
                        exact ih (physical - next) (by omega) next s' t' hpost rfl
      · rw [scan_past hlt, scan_past hlt]
        exact ⟨rfl, hR⟩

/-! ### The strict check

It reads nothing past the end of the store. -/

namespace Strict

theorem Window.ready_lockstep (w : Window) (pos : Nat) {limit : Nat} (hreach : reach limit) :
    Lockstep R R (w.ready pos limit : Act S Fault _) (w.ready pos limit : Act T Fault _) := by
  unfold Window.ready Window.fill
  refine (w.covers_lockstep pos limit).seq fun covered =>
    lockstep_ite (fun _ => lockstep_pure _) fun _ => ?_
  refine subChecked_seq fun hle => (A.read hreach ?_).seq fun bytes => lockstep_pure _
  omega

theorem Prefix.extend_lockstep (crc : BitVec 32) {lo len : Nat} (hreach : reach (lo + len)) :
    Lockstep R R (Prefix.extend crc lo len : Act S Fault _) (Prefix.extend crc lo len : Act T Fault _) :=
  (A.read hreach (Nat.le_refl _)).seq fun _ =>
    lockstep_ite (fun _ => lockstep_pure _) fun _ => lockstep_pure _

theorem Prefix.pushMarks_lockstep {base index : Nat} (hreach : reach (base + index * markInterval))
    (marks : List (BitVec 32)) :
    Lockstep R R (Prefix.pushMarks base index marks : Act S Fault _)
      (Prefix.pushMarks base index marks : Act T Fault _) := by
  induction hn : index + 1 - marks.length using Nat.strongRecOn generalizing marks with
  | ind n ih =>
      rw [Prefix.pushMarks, Prefix.pushMarks]
      refine lockstep_ite (fun hle => ?_) fun _ => lockstep_pure _
      refine subChecked_seq fun hpos => (getChecked_lockstep _ _).seq fun seed => ?_
      have hend : base + (marks.length - 1) * markInterval + markInterval ≤
          base + index * markInterval := by
        rw [Nat.add_assoc, ← Nat.succ_mul]
        exact Nat.add_le_add_left (Nat.mul_le_mul_right _ (by omega)) _
      refine addChecked_seq ((Prefix.extend_lockstep A _ (A.down hend hreach)).seq fun crc => ?_)
      cases crc with
      | none => exact lockstep_pure _
      | some crc =>
          have hlen : (marks ++ [crc]).length = marks.length + 1 := by simp
          exact ih (index + 1 - (marks ++ [crc]).length) (by omega) _ rfl

theorem Prefix.upTo_lockstep (p : Prefix) {pos : Nat} (hreach : reach pos) :
    Lockstep R R (p.upTo pos : Act S Fault _) (p.upTo pos : Act T Fault _) := by
  unfold Prefix.upTo
  refine subChecked_seq fun hbase => ?_
  have hmark := Nat.div_mul_le_self (pos - p.base) markInterval
  refine (Prefix.pushMarks_lockstep A (A.down (by omega) hreach) _).seq fun marks => ?_
  cases marks with
  | none => exact lockstep_pure _
  | some marks =>
      refine addChecked_seq ((getChecked_lockstep _ _).seq fun seed => subChecked_seq fun hlo => ?_)
      refine (Prefix.extend_lockstep A _ (by rwa [Nat.add_sub_cancel' hlo])).seq fun crc => ?_
      cases crc <;> exact lockstep_pure _

theorem Prefix.span_lockstep (p : Prefix) {lo hi : Nat} (hle : lo ≤ hi) (hreach : reach hi) :
    Lockstep R R (p.span lo hi : Act S Fault _) (p.span lo hi : Act T Fault _) := by
  unfold Prefix.span
  refine (Prefix.upTo_lockstep A _ (A.down hle hreach)).seq fun before => ?_
  cases before with
  | none => exact lockstep_pure _
  | some before =>
      refine (Prefix.upTo_lockstep A _ hreach).seq fun through => ?_
      cases through with
      | none => exact lockstep_pure _
      | some through => exact (subChecked_lockstep _ _).seq fun len => lockstep_pure _

theorem streamCrc_lockstep (crc : BitVec 32) (lo : Nat) {recordEnd : Nat} (hreach : reach recordEnd) :
    Lockstep R R (streamCrc crc lo recordEnd : Act S Fault _)
      (streamCrc crc lo recordEnd : Act T Fault _) := by
  induction hn : recordEnd - lo using Nat.strongRecOn generalizing crc lo with
  | ind n ih =>
      rw [streamCrc, streamCrc]
      refine lockstep_ite (fun hlt => ?_) fun _ => lockstep_pure _
      refine (A.read hreach (by omega)).seq fun buf =>
        lockstep_ite (fun _ => lockstep_pure _) fun _ => ?_
      refine (addChecked_lockstep _ _).seq fun _ => ?_
      have hstep : 0 < min (recordEnd - lo) markInterval := by
        unfold markInterval
        omega
      exact ih _ (by omega) _ _ rfl

theorem oversized_lockstep (m pos : Nat) {limit : Nat} (hreach : reach limit) :
    Lockstep R R (oversized m pos limit : Act S Fault _) (oversized m pos limit : Act T Fault _) := by
  unfold oversized
  have h8 : headerLen = 8 := rfl
  refine lockstep_ite (fun _ => lockstep_pure _) fun hroom => ?_
  refine (A.read hreach (by omega)).seq fun header => ?_
  refine lockstep_ite (fun _ => lockstep_pure _) fun _ => addChecked_seq ?_
  refine lockstep_ite (fun _ => lockstep_pure _) fun _ => subChecked_seq fun hstart => ?_
  refine lockstep_ite (fun _ => lockstep_pure _) fun hlen => addChecked_seq ?_
  refine (streamCrc_lockstep A _ _ (A.down (by omega) hreach)).seq fun crc => ?_
  cases crc <;> exact lockstep_pure _

theorem candidate_lockstep (m : Nat) {limit : Nat} (hreach : reach limit) (window : Window)
    (prior : Prefix) (pos : Nat) (header : List UInt8) :
    Lockstep R R (candidate m limit window prior pos header : Act S Fault _)
      (candidate m limit window prior pos header : Act T Fault _) := by
  unfold candidate
  refine subChecked_seq fun hpos => subChecked_seq fun hhdr => ?_
  refine lockstep_ite (fun hlen => ?_) fun _ => lockstep_pure _
  have h8 : headerLen = 8 := rfl
  have h4 : lenOffset = 4 := rfl
  refine addChecked_seq (addChecked_seq ((window.slice_lockstep _ _).seq fun payload => ?_))
  cases payload with
  | some payload => exact lockstep_pure _
  | none =>
      refine (Prefix.span_lockstep A _ (by omega) (A.down (by omega) hreach)).seq fun crc => ?_
      cases crc <;> exact lockstep_pure _

theorem classifyFrom_lockstep (m : Nat) {limit : Nat} (hreach : reach limit) (window : Window)
    (prior : Prefix) (pos : Nat) :
    Lockstep R R (classifyFrom m limit window prior pos : Act S Fault _)
      (classifyFrom m limit window prior pos : Act T Fault _) := by
  induction hn : limit - pos using Nat.strongRecOn generalizing window prior pos with
  | ind n ih =>
      rw [classifyFrom, classifyFrom]
      refine lockstep_ite (fun hle => ?_) fun _ => lockstep_pure _
      refine (window.ready_lockstep A _ hreach).seq fun ready => ?_
      refine lockstep_ite (fun _ => lockstep_pure _) fun _ =>
        (ready.1.header_lockstep _).seq fun header => ?_
      refine (candidate_lockstep A _ hreach _ _ _ _).seq fun found => ?_
      have h8 : headerLen = 8 := rfl
      rcases found with - | ⟨- | -, prior⟩
      · exact lockstep_pure _
      · exact (addChecked_lockstep _ _).seq fun _ => ih _ (by omega) _ _ _ rfl
      · exact lockstep_pure _

theorem classify_lockstep (m damaged : Nat) {limit : Nat} (hreach : reach limit) :
    Lockstep R R (classify m damaged limit : Act S Fault _) (classify m damaged limit : Act T Fault _) := by
  unfold classify
  refine (oversized_lockstep A _ _ hreach).seq fun tail => ?_
  cases tail with
  | some tail => exact lockstep_pure _
  | none =>
      cases checkedAdd damaged 1 with
      | none => exact lockstep_pure _
      | some first => exact classifyFrom_lockstep A _ hreach _ _ _

end Strict

end Reading

/-! ## The calls of a log -/

/-- A store that is flushed and, in `reach`, read as the one in memory is, where `R` relates
the states. -/
structure Reflects {S : Type} [WalStore S] (reach : Nat → Prop) (R : S → MemStore → Prop) : Prop
    extends ReadsAlike reach R where
  sync : Lockstep R R (WalStore.sync : Act S Fault _) WalStore.sync
  len : Lockstep R R (WalStore.len : Act S Fault _) WalStore.len
  head : Lockstep R R (WalStore.head : Act S Fault _) WalStore.head

/-- Related states, with `n` bytes in memory. -/
def Sized {S : Type} (R : S → MemStore → Prop) (n : Nat) (s : S) (mem : MemStore) : Prop :=
  R s mem ∧ mem.data.length = n

/-- A store that answers as the one in memory does.  It has to do so only for writes at the
end that memory can hold, for truncations that do not grow the store and for reads in
`reach`. -/
structure Mimics {S : Type} [WalStore S] [Shipped S] (reach : Nat → Prop)
    (R : S → MemStore → Prop) : Prop extends Reflects reach R where
  writeAt : ∀ n bytes, n + bytes.length < 2 ^ 63 →
    Lockstep (Sized R n) R (WalStore.writeAt n bytes : Act S Fault _) (WalStore.writeAt n bytes)
  truncate : ∀ n len, len ≤ n →
    Lockstep (Sized R n) R (WalStore.truncate len : Act S Fault _) (WalStore.truncate len)
  reopen : ∀ {s mem}, R s mem → ∃ s', Shipped.reopen s = .ok s' ∧ R s' mem

/-- Reading and flushing leave memory as it is. -/
theorem Reflects.sized {S : Type} [WalStore S] {reach : Nat → Prop} {R : S → MemStore → Prop}
    (F : Reflects reach R) (n : Nat) : Reflects reach (Sized R n) where
  down := F.down
  readAt off k hreach s mem h := by
    obtain ⟨hres, hpost⟩ := F.readAt off k hreach s mem h.1
    refine ⟨hres, hpost, ?_⟩
    rw [MemStore.readAt_eq]
    exact h.2
  sync s mem h := ⟨(F.sync s mem h.1).1, (F.sync s mem h.1).2, h.2⟩
  len s mem h := ⟨(F.len s mem h.1).1, (F.len s mem h.1).2, h.2⟩
  head s mem h := ⟨(F.head s mem h.1).1, (F.head s mem h.1).2, h.2⟩

namespace Wal

section Reading

variable {S : Type} [WalStore S]

theorem Iter.collect_error {it : Iter} {w w' : Wal S} {fault : Fault}
    (h : it.next w = (.error fault, w')) : it.collect w = (.error fault, w') := by
  rw [collect]
  split <;> rename_i heq <;> rw [h] at heq <;> cases heq
  rfl

theorem Iter.collect_cons {it it' : Iter} {w w' : Wal S} {item : Except WalError Record}
    (h : it.next w = (.ok (some item, it'), w')) :
    it.collect w = ((it'.collect w').1.map (item :: ·), (it'.collect w').2) := by
  rw [collect]
  split <;> rename_i heq <;> rw [h] at heq <;> cases heq
  cases it'.collect w' with
  | mk r w'' => cases r <;> rfl

/-- The iterator goes on to the same end. -/
theorem Iter.next_endAt {it it' : Iter} {w w' : Wal S} {item : Option (Except WalError Record)}
    (h : it.next w = (.ok (item, it'), w')) : it'.endAt = it.endAt := by
  unfold next at h
  split at h
  · cases h
    rfl
  · rw [Act.attempt_bind] at h
    cases hs : it.step w with
    | mk r w1 =>
        rw [hs] at h
        dsimp only at h
        split at h
        · cases h
          rfl
        · split at h <;> cases h <;> rfl
        · cases h
          rfl
        · cases h
          rfl
        · cases h
          rfl
        · cases h

end Reading

/-- Two logs with `m` as their largest record size, whose stores are read alike in `reach`. -/
structure ReadsAlike {S T : Type} [WalStore S] [WalStore T] (reach : Nat → Prop) (m : Nat)
    (R : Wal S → Wal T → Prop) : Prop where
  down : ∀ {a b : Nat}, a ≤ b → reach b → reach a
  max_eq : ∀ w v, R w v → w.maxRecordSize = m ∧ v.maxRecordSize = m
  readAt : ∀ off n, reach (off + n) →
    Lockstep R R (onStore (WalStore.readAt off n) : Act (Wal S) Fault _)
      (onStore (WalStore.readAt off n))

section Reading

variable {S T : Type} [WalStore S] [WalStore T] {reach : Nat → Prop} {m : Nat}
variable {R : Wal S → Wal T → Prop} (A : ReadsAlike reach m R)

include A

theorem keptEnd_lockstep {lsn : Nat} (hreach : reach (lsn + headerLen + m)) :
    Lockstep R R (keptEnd lsn : Act (Wal S) Fault Nat) (keptEnd lsn) := by
  refine lockstep_get fun w v ht => ?_
  obtain ⟨hw, hv⟩ := A.max_eq w v ht
  rw [hw, hv]
  refine (A.readAt _ _ (A.down (by omega) hreach)).seq fun header =>
    lockstep_ite (fun _ => lockstep_fail _) fun _ => lockstep_ite (fun _ => lockstep_fail _) fun hlen => ?_
  cases hstart : checkedAdd lsn headerLen with
  | none => exact lockstep_fail _
  | some payloadStart =>
      obtain ⟨rfl, -⟩ := checkedAdd_eq_some hstart
      refine (A.readAt _ _ (A.down (by omega) hreach)).seq fun payload => ?_
      refine lockstep_ite (fun _ => lockstep_fail _) fun _ => lockstep_ite (fun _ => lockstep_fail _) fun _ => ?_
      cases checkedAdd (lsn + headerLen) (parseHeader header).len with
      | none => exact lockstep_fail _
      | some newEnd => exact lockstep_pure _

namespace Iter

variable (it : Iter)

theorem step_lockstep (hreach : reach (it.offset + headerLen + m)) :
    Lockstep R R (it.step : Act (Wal S) Fault Step) it.step := by
  refine lockstep_get fun w v ht => ?_
  obtain ⟨hw, hv⟩ := A.max_eq w v ht
  rw [hw, hv]
  refine (A.readAt _ _ (A.down (by omega) hreach)).seq fun header =>
    lockstep_ite (fun _ => lockstep_pure _) fun _ => lockstep_ite (fun _ => lockstep_pure _) fun hlen => ?_
  cases hstart : checkedAdd it.offset headerLen with
  | none => exact lockstep_fail _
  | some payloadStart =>
      obtain ⟨rfl, -⟩ := checkedAdd_eq_some hstart
      refine (A.readAt _ _ (A.down (by omega) hreach)).seq fun payload => ?_
      refine lockstep_ite (fun _ => lockstep_pure _) fun _ => ?_
      cases checkedAdd (it.offset + headerLen) (parseHeader header).len with
      | none => exact lockstep_fail _
      | some next => exact lockstep_ite (fun _ => lockstep_pure _) fun _ => lockstep_pure _

theorem next_lockstep (hreach : reach (it.endAt + headerLen + m)) :
    Lockstep R R (it.next : Act (Wal S) Fault _) it.next := by
  unfold Iter.next
  refine lockstep_ite (fun _ => lockstep_pure _) fun hstop => ?_
  have hlt : it.offset < it.endAt := Nat.lt_of_not_le fun hle => hstop (Or.inr hle)
  refine (it.step_lockstep A (A.down (by omega) hreach)).attempt.seq fun result => ?_
  cases result with
  | ok st =>
      cases st with
      | record r next => exact lockstep_pure _
      | damaged e next =>
          cases next with
          | none => exact lockstep_pure _
          | some next => exact lockstep_ite (fun _ => lockstep_pure _) fun _ => lockstep_pure _
      | ended => exact lockstep_pure _
  | error fault =>
      cases fault with
      | err e => exact lockstep_pure _
      | panics msg => exact lockstep_fail _
      | blocked => exact lockstep_fail _

theorem collect_lockstep (hreach : reach (it.endAt + headerLen + m)) :
    Lockstep R R (it.collect : Act (Wal S) Fault _) it.collect := by
  intro w v ht
  induction hn : it.left using Nat.strongRecOn generalizing it w v with
  | ind n ih =>
      obtain ⟨hres, hpost⟩ := it.next_lockstep A hreach w v ht
      cases hw : it.next w with
      | mk r w' =>
          cases hv : it.next v with
          | mk r' v' =>
              rw [hw, hv] at hres hpost
              dsimp only at hres hpost
              subst hres
              rcases r with fault | ⟨item, it'⟩
              · rw [collect_error hw, collect_error hv]
                exact ⟨rfl, hpost⟩
              · cases item with
                | none =>
                    rw [collect_none hw, collect_none hv]
                    exact ⟨rfl, hpost⟩
                | some item =>
                    have hlt := next_left_lt hw
                    obtain ⟨hrest, hpost'⟩ := ih it'.left (by omega) it'
                      (by rwa [next_endAt hw]) w' v' hpost rfl
                    rw [collect_cons hw, collect_cons hv, hrest]
                    exact ⟨rfl, hpost'⟩

end Iter

end Reading

/-- Two logs with their tails at `k`, `m` as their largest record size and all other fields
the same, over related stores. -/
structure Twin {S : Type} (R : S → MemStore → Prop) (m k : Nat) (wal : Wal S) (mem : Wal MemStore) :
    Prop where
  tail_eq : wal.tail = k
  mem_tail_eq : mem.tail = k
  max_eq : wal.maxRecordSize = m
  mem_max_eq : mem.maxRecordSize = m
  policy_eq : wal.recoveryPolicy = mem.recoveryPolicy
  head_eq : wal.head = mem.head
  commit_eq : wal.commit = mem.commit
  cut_eq : wal.truncatedOnOpen = mem.truncatedOnOpen
  store : R wal.store mem.store

/-- Two logs between two calls: memory ends at the tail. -/
def Between {S : Type} (R : S → MemStore → Prop) (wal : Wal S) (mem : Wal MemStore) : Prop :=
  ∃ m k, Twin (Sized R k) m k wal mem

section Calls

variable {S : Type} {reach : Nat → Prop} {R Q : S → MemStore → Prop} {m k : Nat} {wal : Wal S}
variable {mem : Wal MemStore}

theorem Twin.onStore {α : Type} {x : Act S Fault α} {y : Act MemStore Fault α}
    (h : Lockstep R Q x y) : Lockstep (Twin R m k) (Twin Q m k) (onStore x) (onStore y) :=
  h.zoom (fun _ _ ht => ht.store) fun _ _ _ _ ht hQ => { ht with store := hQ }

theorem Twin.onCommit (f : Commit.State → Commit.State) :
    Lockstep (Twin R m k) (Twin R m k) (onCommit f : Act (Wal S) Fault Unit) (onCommit f) :=
  lockstep_modify fun _ _ ht => { ht with commit_eq := congrArg f ht.commit_eq }

variable [WalStore S]

theorem syncRounds_lockstep (F : Reflects reach R) (rounds target : Nat) :
    Lockstep (Twin R m k) (Twin R m k) (syncRounds rounds target : Act (Wal S) Fault Unit)
      (syncRounds rounds target) := by
  induction rounds with
  | zero => exact lockstep_fail _
  | succ rounds ih =>
      rw [syncRounds, syncRounds]
      refine lockstep_get fun w v ht => ?_
      rw [ht.commit_eq]
      generalize Commit.syncCheck v.commit target = r
      obtain ⟨commit, exit⟩ := r
      refine (Twin.onCommit _).seq fun _ => ?_
      cases exit with
      | done result =>
          cases result with
          | ok u => exact lockstep_pure _
          | error e => exact lockstep_fail _
      | wait => exact lockstep_fail _
      | lead flushTo =>
          refine (Twin.onStore F.sync).attempt.seq fun result => ?_
          cases result with
          | ok u => exact (Twin.onCommit _).seq fun _ => ih
          | error fault =>
              cases fault with
              | err e => exact (Twin.onCommit _).seq fun _ => lockstep_fail _
              | panics msg => exact lockstep_fail _
              | blocked => exact lockstep_fail _

theorem sync_lockstep (F : Reflects reach R) :
    Lockstep (Twin R m k) (Twin R m k) (sync : Act (Wal S) Fault Unit) sync := by
  refine lockstep_get fun w v ht => ?_
  rw [ht.tail_eq, ht.mem_tail_eq]
  exact lockstep_ite (fun _ => lockstep_pure _) fun _ => syncRounds_lockstep F _ _

theorem Twin.readsAlike (F : Reflects reach R) : ReadsAlike reach m (Twin R m k) where
  down := F.down
  max_eq _ _ ht := ⟨ht.max_eq, ht.mem_max_eq⟩
  readAt off n hreach := Twin.onStore (F.readAt off n (Or.inr hreach))

/-- An append whose write succeeds. -/
theorem append_written {record : List UInt8} (hlen : record.length ≤ wal.maxRecordSize)
    (hfit : wal.tail + framedLen record.length < 2 ^ 64) {s' : S}
    (hwrite : WalStore.writeAt wal.tail (frame record) wal.store = (.ok (), s')) :
    append record wal = (.ok wal.tail,
      { wal with
        tail := wal.tail + framedLen record.length
        store := s'
        commit := (Commit.markWritten wal.commit wal.tail
          (wal.tail + framedLen record.length)).1 }) := by
  rw [append, Act.get_bind, if_neg (Nat.not_lt.mpr hlen)]
  simp only [checkedAdd_of_lt hfit]
  rw [Act.modify_bind, Act.attempt_bind, onStore_ok (by exact hwrite)]
  simp only
  rw [Nat.mod_eq_of_lt hfit]
  rfl

variable [Shipped S]

theorem append_lockstep (M : Mimics reach R) (record : List UInt8)
    (hfit : k + framedLen record.length < 2 ^ 63) :
    Lockstep (Twin (Sized R k) m k) (Between R) (append record : Act (Wal S) Fault Nat)
      (append record) := by
  intro w v ht
  have htw := ht.tail_eq
  have htv := ht.mem_tail_eq
  have hmw := ht.max_eq
  have hmv := ht.mem_max_eq
  by_cases hlen : m < record.length
  · rw [append_tooLarge (by omega), append_tooLarge (by omega), hmw, hmv]
    exact ⟨rfl, m, k, ht⟩
  · have hflen : (frame record).length = framedLen record.length := frame_length record
    obtain ⟨mem', hmem⟩ := MemStore.writeAt_end (frame record) ht.store.2 (by omega)
    obtain ⟨hres, hpost⟩ := M.writeAt k (frame record) (by omega) w.store v.store ht.store
    rw [hmem] at hres hpost
    have hstore : WalStore.writeAt w.tail (frame record) w.store =
        (.ok (), (WalStore.writeAt k (frame record) w.store).2) := by
      rw [htw]
      exact Prod.ext hres rfl
    rw [append_written (by omega) (by omega) hstore,
      append_written (by omega) (by omega) (htv ▸ hmem), htw, htv, ht.commit_eq]
    refine ⟨rfl, m, k + framedLen record.length, rfl, rfl, hmw, hmv, ht.policy_eq, ht.head_eq, rfl,
      ht.cut_eq, hpost, ?_⟩
    show mem'.data.length = _
    rw [MemStore.writeAt_data hmem, length_overwrite, ht.store.2]
    omega

theorem appendAndSync_lockstep (M : Mimics reach R) (record : List UInt8)
    (hfit : k + framedLen record.length < 2 ^ 63) :
    Lockstep (Twin (Sized R k) m k) (Between R) (appendAndSync record : Act (Wal S) Fault Nat)
      (appendAndSync record) := by
  refine (append_lockstep M record hfit).bind (fun lsn w v ⟨m', k', ht⟩ => ?_) fun _ _ h => h
  have hsync : Lockstep (Twin (Sized R k') m' k') (Twin (Sized R k') m' k')
      (do syncTo (lsn + framedLen record.length); pure lsn : Act (Wal S) Fault Nat)
      (do syncTo (lsn + framedLen record.length); pure lsn) :=
    (syncRounds_lockstep (M.toReflects.sized k') _ _).seq fun _ => lockstep_pure _
  exact ⟨(hsync w v ht).1, m', k', (hsync w v ht).2⟩

omit [WalStore S] [Shipped S] in
/-- The checks of `truncate_after` read, and find no record past the end. -/
theorem keptEnd_le {mem mem' : Wal MemStore} {lsn newEnd : Nat}
    (h : keptEnd lsn mem = (.ok newEnd, mem')) : newEnd ≤ mem.store.data.length ∧ mem' = mem := by
  have hread : ∀ off n, onStore (WalStore.readAt off n) mem =
      (.ok ((mem.store.data.drop off).take n), mem) := fun off n =>
    onStore_ok (MemStore.readAt_eq off n mem.store)
  rw [keptEnd, Act.get_bind, Act.bind_ok (hread _ _)] at h
  by_cases hshort : ((mem.store.data.drop lsn).take headerLen).length < headerLen
  · rw [if_pos hshort] at h
    cases h
  rw [if_neg hshort] at h
  rw [List.length_take, List.length_drop] at hshort
  generalize (mem.store.data.drop lsn).take headerLen = header at h
  by_cases hbig : mem.maxRecordSize < (parseHeader header).len
  · rw [if_pos hbig] at h
    cases h
  rw [if_neg hbig] at h
  have h8 : headerLen = 8 := rfl
  cases h1 : checkedAdd lsn headerLen with
  | none =>
      rw [h1] at h
      cases h
  | some payloadStart =>
      rw [h1] at h
      dsimp only at h
      rw [Act.bind_ok (hread _ _)] at h
      have e1 := (checkedAdd_eq_some h1).1
      by_cases hpay : ((mem.store.data.drop payloadStart).take (parseHeader header).len).length <
          (parseHeader header).len
      · rw [if_pos hpay] at h
        cases h
      rw [if_neg hpay] at h
      rw [List.length_take, List.length_drop] at hpay
      split at h
      · cases h
      cases h2 : checkedAdd payloadStart (parseHeader header).len with
      | none =>
          rw [h2] at h
          cases h
      | some next =>
          rw [h2] at h
          cases h
          have e2 := (checkedAdd_eq_some h2).1
          exact ⟨by omega, rfl⟩

theorem truncateAfter_lockstep (M : Mimics reach R) {lsn : Nat}
    (hreach : reach (lsn + headerLen + m)) :
    Lockstep (Twin (Sized R k) m k) (Between R) (truncateAfter lsn : Act (Wal S) Fault Unit)
      (truncateAfter lsn) := by
  intro w v ht
  obtain ⟨hres, hpost⟩ := keptEnd_lockstep (Twin.readsAlike (M.toReflects.sized k)) hreach w v ht
  cases hw : keptEnd lsn w with
  | mk r w' =>
      cases hv : keptEnd lsn v with
      | mk r' v' =>
          rw [hw, hv] at hres hpost
          dsimp only at hres hpost
          subst hres
          cases r with
          | error fault =>
              rw [truncateAfter, truncateAfter, Act.bind_error hw, Act.bind_error hv]
              exact ⟨rfl, m, k, hpost⟩
          | ok newEnd =>
              rw [truncateAfter, truncateAfter, Act.bind_ok hw, Act.bind_ok hv]
              have hle := (keptEnd_le hv).1
              rw [ht.store.2] at hle
              -- Neither the cut nor the flush fails in memory, so neither does in the store.
              obtain ⟨hcut, hcut'⟩ := M.truncate k newEnd hle w'.store v'.store hpost.store
              obtain ⟨hsync, hsync'⟩ := M.sync _ _ hcut'
              have hok : ∀ {T : Type} (x : Act T Fault Unit) (u : Wal T), (x u.store).1 = .ok () →
                  onStore x u = (.ok (), { u with store := (x u.store).2 }) := fun x u hu =>
                onStore_ok (Prod.ext hu rfl)
              rw [Act.bind_ok (hok _ w' hcut), Act.bind_ok (hok _ v' rfl), Act.bind_ok (hok _ _ hsync),
                Act.bind_ok (hok _ _ rfl)]
              refine ⟨rfl, m, newEnd, rfl, rfl, hpost.max_eq, hpost.mem_max_eq, hpost.policy_eq, hpost.head_eq,
                congrArg (Commit.reset · newEnd) hpost.commit_eq, hpost.cut_eq, hsync', ?_⟩
              show (v'.store.data.take newEnd).length = newEnd
              rw [List.length_take, hpost.store.2]
              exact Nat.min_eq_left hle

end Calls

end Wal

/-! ## Opening -/

section Opening

variable {S : Type} [WalStore S] [Shipped S] {reach : Nat → Prop} {R : S → MemStore → Prop}
variable {k : Nat}

theorem cutTail_lockstep (M : Mimics reach R) (config : WalConfig) {offset physical : Nat}
    (hreach : reach physical) (hle : offset ≤ k) :
    Lockstep (Sized R k) R (cutTail config offset physical : Act S Fault Unit)
      (cutTail config offset physical) := by
  have hdrop : ∀ s mem, Sized R k s mem → R s mem := fun _ _ h => h.1
  refine lockstep_ite (fun _ => ?_) fun _ => M.truncate k offset hle
  refine (Strict.classify_lockstep (M.toReflects.sized k).toReadsAlike _ _ hreach).bind (fun tail => ?_) hdrop
  cases tail with
  | torn => exact M.truncate k offset hle
  | intactAfter => exact (lockstep_fail _).mono hdrop
  | unreadable => exact (lockstep_fail _).mono hdrop
  | oversized => exact (lockstep_fail _).mono hdrop

/-- The open reads no further than one record past the end. -/
theorem recover_lockstep (M : Mimics reach R) (config : WalConfig) (head : Nat) :
    Lockstep (fun s mem => R s mem ∧ reach (mem.data.length + headerLen + config.maxRecordSize)) R
      (recover config head : Act S Fault Recovered) (recover config head) := by
  intro s mem ⟨hR, hreach⟩
  have F := M.toReflects.sized mem.data.length
  obtain ⟨hlen, hlen'⟩ := F.len s mem ⟨hR, rfl⟩
  have hs : WalStore.len s = (.ok mem.data.length, (WalStore.len s).2) := Prod.ext hlen rfl
  rw [recover, recover, Act.bind_ok hs, Act.bind_ok (MemStore.flat.len_eq mem)]
  have hrest : Lockstep (Sized R mem.data.length) R
      (do
        let offset ← scan config.maxRecordSize mem.data.length head
        if offset < mem.data.length then do
          cutTail config offset mem.data.length
          pure { endAt := offset, cut := mem.data.length - offset }
        else pure { endAt := offset, cut := mem.data.length - offset } : Act S Fault Recovered)
      (do
        let offset ← scan config.maxRecordSize mem.data.length head
        if offset < mem.data.length then do
          cutTail config offset mem.data.length
          pure { endAt := offset, cut := mem.data.length - offset }
        else pure { endAt := offset, cut := mem.data.length - offset }) := by
    refine (scan_lockstep F.toReadsAlike hreach _).bind (fun offset => ?_) fun _ _ h => h.1
    refine lockstep_ite (fun hlt => ?_) fun _ => (lockstep_pure _).mono fun _ _ h => h.1
    exact (cutTail_lockstep M config (M.down (by omega) hreach) (Nat.le_of_lt hlt)).bind
      (fun _ => lockstep_pure _) fun _ _ h => h
  exact hrest _ _ hlen'

/-- The open of a store and that of memory end alike, with logs that are twins if they
succeed. -/
theorem open_lockstep (M : Mimics reach R) (config : WalConfig) {s : S} {mem : MemStore}
    (hR : R s mem) (hreach : reach (mem.data.length + headerLen + config.maxRecordSize)) :
    (∃ wal v, Wal.withStoreAndConfig config s = (.ok wal, wal.store) ∧
      Wal.withStoreAndConfig config mem = (.ok v, v.store) ∧ Wal.Between R wal v) ∨
    ∃ fault s' mem', Wal.withStoreAndConfig config s = (.error fault, s') ∧
      Wal.withStoreAndConfig config mem = (.error fault, mem') ∧ R s' mem' := by
  obtain ⟨hhead, hhead'⟩ := M.head s mem hR
  have hs : WalStore.head s = (.ok 0, (WalStore.head s).2) := Prod.ext hhead rfl
  obtain ⟨hres, hpost⟩ := recover_lockstep M config 0 _ _ ⟨hhead', hreach⟩
  have hmem : WalStore.head mem = (.ok 0, mem) := rfl
  rw [hmem] at hres hpost
  cases hrs : recover config 0 (WalStore.head s).2 with
  | mk r s' =>
      cases hrm : recover config 0 mem with
      | mk r' mem' =>
          rw [hrs, hrm] at hres hpost
          dsimp only at hres hpost
          subst hres
          cases r with
          | error fault =>
              refine Or.inr ⟨fault, s', mem', ?_, ?_, hpost⟩
              · rw [Wal.withStoreAndConfig, Act.bind_ok hs, Act.bind_error hrs]
              · rw [Wal.withStoreAndConfig, Act.bind_ok hmem, Act.bind_error hrm]
          | ok recovered =>
              have hopen : Wal.withStoreAndConfig config mem =
                  (.ok (openedLog config 0 recovered.endAt recovered.cut mem'), mem') := by
                rw [Wal.withStoreAndConfig, Act.bind_ok hmem, Act.bind_ok hrm]
                rfl
              obtain ⟨hdata, -, htail, -⟩ := MemStore.flat.open_ok hopen
              have hlen : mem'.data.length = recovered.endAt := by
                have hdata : mem'.data = _ := hdata
                have htail : recovered.endAt = _ := htail
                rw [hdata, htail, List.length_take]
                exact Nat.min_eq_left (logEnd_le config.maxRecordSize_lt
                  (fun o ho => List.getElem?_eq_none ho) (Nat.zero_le _))
              refine Or.inl ⟨openedLog config 0 recovered.endAt recovered.cut s', _, ?_, hopen,
                config.maxRecordSize, recovered.endAt, rfl, rfl, rfl, rfl, rfl, rfl, rfl, rfl, hpost,
                hlen⟩
              rw [Wal.withStoreAndConfig, Act.bind_ok hs, Act.bind_ok hrs]
              rfl

end Opening

end WalDb
