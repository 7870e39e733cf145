/-
Whether the log holds records (`Wal::len` and `Wal::is_empty`).

`is_empty` asks whether the reservation tail is 0, while the iterator goes from the head to
the watermark.  The tail also counts what a failed append has reserved and what
`truncate_before` has dropped, so a log without a record may say that it is not empty.

A log is used through its calls, some of which may fail, and through reopens.  The
invariant `Kept` says that either nothing was ever written or the first record is there,
from the head to the watermark at most; `Careful` is what a call has to meet for that to
last.
-/
import WalDb.Lib.Run
import WalDb.Shipped
import WalDb.Strict.Open

namespace WalDb

open Lib Record Shipped

namespace Wal

section Model

variable {S : Type}

/-- The offset at which the next append will land. -/
def len (wal : Wal S) : Nat := wal.tail

def isEmpty (wal : Wal S) : Bool := decide (wal.len = 0)

variable [WalStore S]

/-- Some call of `next` returns the record `r`. -/
inductive Iter.Yields : Iter → Wal S → Record → Prop
  | here {it it' : Iter} {wal wal' : Wal S} {r : Record} :
      it.next wal = (.ok (some (.ok r), it'), wal') → Yields it wal r
  | later {it it' : Iter} {wal wal' : Wal S} {item : Except WalError Record} {r : Record} :
      it.next wal = (.ok (some item, it'), wal') → Yields it' wal' r → Yields it wal r

/-! ## Using a log -/

/-- What a user does with a log.  An append and a sync come with the outcomes that their
system calls have. -/
inductive UserOp where
  | append (record : List UInt8) (faults : List Bool)
  | sync (faults : List Bool)
  | truncateBefore (lsn : Nat)
  | truncateAfter (lsn : Nat)
  | reopen (config : WalConfig)

variable [Shipped S]

/-- The log with the outcomes that its next system calls have. -/
def facing (wal : Wal S) (faults : List Bool) : Wal S :=
  { wal with store := setFaults faults wal.store }

/-- The log after a call that has returned, with an error or without.  One that panics, or
waits for another thread, does not. -/
def returned {α : Type} : Except Fault α × Wal S → Option (Wal S)
  | (.ok _, wal) => some (wal.facing [])
  | (.error (.err _), wal) => some (wal.facing [])
  | (.error _, _) => none

/-- The log that the next process opens on what `store` has left. -/
def openOn (config : WalConfig) (store : S) : Option (Wal S) :=
  match Shipped.reopen store with
  | .ok store' => (withStoreAndConfig config store').1.toOption
  | .error _ => none

def use (wal : Wal S) : UserOp → Option (Wal S)
  | .append record faults => returned ((wal.facing faults).append record)
  | .sync faults => returned (wal.facing faults).sync
  | .truncateBefore lsn => returned (wal.truncateBefore lsn)
  | .truncateAfter lsn => returned (wal.truncateAfter lsn)
  | .reopen config => openOn config wal.store

/-! ## The condition -/

/-- A record starts at `off` and ends at the watermark or before it. -/
def Live (wal : Wal S) (off : Nat) : Prop :=
  ∃ p ∈ recordAt (image wal.store) wal.maxRecordSize off,
    off + framedLen p.length ≤ wal.commit.committed

instance (wal : Wal S) (off : Nat) : Decidable (wal.Live off) :=
  inferInstanceAs (Decidable (∃ p ∈ recordAt _ _ _, _))

/-- Nothing has been dropped from the store, or an admissible record is at its head. -/
def Findable (config : WalConfig) (store : S) : Prop :=
  recordedHead store = 0 ∨
    (recordAt (image store) config.maxRecordSize (recordedHead store)).isSome = true

instance (config : WalConfig) (store : S) : Decidable (Findable config store) :=
  inferInstanceAs (Decidable (_ ∨ _))

/-- The condition on a call.  The log does not run out of offsets, and no write fails while
it holds no record; `truncate_before` leaves a record; `truncate_after` is not to an LSN
below the head or inside the first record. -/
def Careful (wal : Wal S) : UserOp → Prop
  | .append record faults =>
      wal.maxRecordSize < record.length ∨ wal.tail + framedLen record.length < 2 ^ 64 ∧
        (wal.Live wal.head ∨
          (WalStore.writeAt wal.tail (encode [] record) (setFaults faults wal.store)).1.toBool = true)
  | .sync _ => True
  | .truncateBefore lsn => wal.Live wal.head → wal.Live (dropTo lsn wal.store)
  | .truncateAfter lsn => ∀ p ∈ recordAt (image wal.store) wal.maxRecordSize wal.head,
      lsn = wal.head ∨ wal.head + framedLen p.length ≤ lsn
  | .reopen config => Findable config wal.store

instance (wal : Wal S) : ∀ op, Decidable (wal.Careful op)
  | .append _ _ => inferInstanceAs (Decidable (_ ∨ _ ∧ (_ ∨ _)))
  | .sync _ => inferInstanceAs (Decidable True)
  | .truncateBefore _ => inferInstanceAs (Decidable (_ → _))
  | .truncateAfter _ => inferInstanceAs (Decidable (∀ p ∈ recordAt _ _ _, _))
  | .reopen config => inferInstanceAs (Decidable (Findable config wal.store))

/-! ## The invariant -/

/-- Either nothing is stored, or the first record is there. -/
structure Held (wal : Wal S) : Prop where
  max_lt : wal.maxRecordSize < 2 ^ 32
  usable : Usable wal.store
  head_eq : recordedHead wal.store = wal.head
  committed_le : wal.commit.committed ≤ wal.tail
  pending_le : ∀ a b, wal.commit.pending.lookup a = some b → a ≤ b ∧ b ≤ wal.tail
  first : wal.tail = 0 ∧ Blank wal.store ∨ wal.Live wal.head

/-- A log between two calls. -/
structure Kept (wal : Wal S) : Prop extends Held wal where
  calm : Calm wal.store

end Model

end Wal

/-! ## The watermark -/

namespace Commit

/-- Where every pending region ends at `limit` or before it, so does what is folded in. -/
theorem drain_between {st : State} {limit : Nat} (hle : st.committed ≤ limit)
    (hpending : ∀ a b, st.pending.lookup a = some b → a ≤ b ∧ b ≤ limit) :
    st.committed ≤ (drain st).committed ∧ (drain st).committed ≤ limit ∧
      ∀ a b, (drain st).pending.lookup a = some b → a ≤ b ∧ b ≤ limit := by
  induction st using drain.induct with
  | case1 st nextEnd hlook ih =>
      obtain ⟨h1, h2⟩ := hpending _ _ hlook
      rw [drain_some hlook]
      obtain ⟨hge, hend, hrest⟩ := ih h2 fun a b hab => by
        by_cases ha : a = st.committed
        · subst ha
          rw [AList.lookup_erase] at hab
          cases hab
        · rw [AList.lookup_erase_ne ha] at hab
          exact hpending a b hab
      exact ⟨Nat.le_trans h1 hge, hend, hrest⟩
  | case2 st hlook =>
      rw [drain_none hlook]
      exact ⟨Nat.le_refl _, hle, hpending⟩

/-- A region that ends past every other is folded in, or waits for the ones before it. -/
theorem markWritten_between {st : State} {start endAt : Nat} (hle : st.committed ≤ start)
    (hlt : start ≤ endAt) (hpending : ∀ a b, st.pending.lookup a = some b → a ≤ b ∧ b ≤ start) :
    let st' := (markWritten st start endAt).1
    st.committed ≤ st'.committed ∧ st'.committed ≤ endAt ∧
      (start = st.committed → endAt ≤ st'.committed) ∧
      ∀ a b, st'.pending.lookup a = some b → a ≤ b ∧ b ≤ endAt := by
  intro st'
  have hweaken : ∀ a b, st.pending.lookup a = some b → a ≤ b ∧ b ≤ endAt := fun a b hab =>
    ⟨(hpending a b hab).1, Nat.le_trans (hpending a b hab).2 hlt⟩
  have hst' : st' = insertRegion st start endAt := rfl
  rw [hst', insertRegion]
  by_cases heq : start = st.committed
  · rw [if_pos heq]
    obtain ⟨h1, h2, h3⟩ :=
      @drain_between { st with committed := endAt } endAt (Nat.le_refl _) hweaken
    exact ⟨Nat.le_trans (Nat.le_trans hle hlt) h1, h2, fun _ => h1, h3⟩
  · rw [if_neg heq]
    refine ⟨Nat.le_refl _, Nat.le_trans hle hlt, fun h => absurd h heq, fun a b hab => ?_⟩
    by_cases ha : a = start
    · subst ha
      have hab : AList.lookup a (st.pending.insert a endAt) = some b := hab
      rw [AList.lookup_insert] at hab
      cases hab
      exact ⟨hlt, Nat.le_refl _⟩
    · have hab : AList.lookup a (st.pending.insert start endAt) = some b := hab
      rw [AList.lookup_insert_ne ha] at hab
      exact hweaken a b hab

end Commit

namespace Wal

section Steps

variable {S : Type} [WalStore S] [Shipped S] [LawfulShipped S] {wal wal' : Wal S}

omit [LawfulShipped S] in
/-- A record whose bytes are kept is still there. -/
theorem recordAt_retained {m n off : Nat} (hm : m < 2 ^ 32) {s s' : S} (h : Retains n s s')
    {p : List UInt8} (hp : recordAt (image s) m off = some p)
    (hle : off + framedLen p.length ≤ n) : recordAt (image s') m off = some p := by
  obtain ⟨hlen, hread⟩ := (recordAt_eq_some_iff hm).mp hp
  obtain ⟨hflen, hbytes⟩ := Image.read_eq_some_iff.mp hread
  refine (recordAt_eq_some_iff hm).mpr ⟨hlen, Image.read_eq_some_iff.mpr ⟨hflen, fun i hi => ?_⟩⟩
  have hbyte := hbytes i hi
  rw [List.getElem?_eq_getElem (by omega)] at hbyte ⊢
  exact h.kept _ _ (by omega) hbyte

omit [LawfulShipped S] in
/-- The first record stays live while its bytes are kept and the watermark stays past them. -/
theorem Live.retained {n off : Nat} (h : wal.Live off) (hm : wal.maxRecordSize < 2 ^ 32)
    (hr : Retains n wal.store wal'.store) (hmax : wal'.maxRecordSize = wal.maxRecordSize)
    (hn : wal.commit.committed ≤ n) (hc : wal.commit.committed ≤ wal'.commit.committed) :
    wal'.Live off := by
  obtain ⟨p, hp, hle⟩ := h
  refine ⟨p, ?_, Nat.le_trans hle hc⟩
  rw [hmax]
  exact recordAt_retained hm hr hp (Nat.le_trans hle hn)

omit [LawfulShipped S] in
/-- A call that only changes the store, and keeps it in order, has to keep the first record. -/
theorem Held.onto (h : wal.Held) {n : Nat} {s : S} (hr : Retains n wal.store s)
    (hfirst : wal.tail = 0 ∧ Blank s ∨ ({ wal with store := s } : Wal S).Live wal.head) :
    ({ wal with store := s } : Wal S).Held :=
  ⟨h.max_lt, hr.usable, hr.head_eq.trans h.head_eq, h.committed_le, h.pending_le, hfirst⟩

omit [LawfulShipped S] in
theorem Held.live_onto (h : wal.Held) {off : Nat} (hlive : wal.Live off) {s : S}
    (hr : Retains wal.commit.committed wal.store s) :
    ({ wal with store := s } : Wal S).Live off :=
  hlive.retained h.max_lt hr rfl (Nat.le_refl _) (Nat.le_refl _)

theorem Held.live_facing (h : wal.Held) {off : Nat} (hlive : wal.Live off) (faults : List Bool) :
    (wal.facing faults).Live off :=
  h.live_onto hlive (LawfulShipped.setFaults_retains faults wal.commit.committed h.usable)

theorem Held.facing (h : wal.Held) (faults : List Bool) : (wal.facing faults).Held := by
  refine h.onto (LawfulShipped.setFaults_retains faults 0 h.usable) ?_
  exact h.first.imp (fun hempty => ⟨hempty.1, LawfulShipped.setFaults_blank faults hempty.2⟩)
    fun hlive => h.live_facing hlive faults

/-- What a call keeps, whether it succeeds or fails, the log has after it. -/
theorem kept_of_returned {α : Type} {x : Act (Wal S) Fault α}
    (h : x.Ends wal (fun _ => Held) fun _ => Held) (hret : returned (x wal) = some wal') :
    wal'.Kept := by
  have hkept : ∀ w : Wal S, w.Held → (w.facing []).Kept := fun w hw =>
    ⟨hw.facing [], LawfulShipped.setFaults_calm w.store⟩
  rcases h.cases with ⟨a, w, hx, hw⟩ | ⟨e, w, hx, hw⟩
  · rw [hx] at hret
    cases hret
    exact hkept w hw
  · rw [hx] at hret
    cases e <;> cases hret
    exact hkept w hw

/-! ## Appending -/

omit [Shipped S] [LawfulShipped S] in
/-- Where the log does not run out of offsets, an append reserves a range, writes its frame
there, and tells the watermark how that went. -/
theorem append_write {record : List UInt8} (hlen : record.length ≤ wal.maxRecordSize)
    (hfit : wal.tail + framedLen record.length < 2 ^ 64) {Q : Wal S → Prop}
    (h : (WalStore.writeAt wal.tail (frame record)).Ends wal.store
      (fun _ s => Q { wal with
        tail := wal.tail + framedLen record.length
        store := s
        commit := (Commit.markWritten wal.commit wal.tail (wal.tail + framedLen record.length)).1 })
      fun _ s => ∀ poison, Q { wal with
        tail := wal.tail + framedLen record.length
        store := s
        commit := { wal.commit with poison := poison } }) :
    (append record).Ends wal (fun _ => Q) fun _ => Q := by
  rw [Act.Ends, append, Act.get_bind, if_neg (Nat.not_lt.mpr hlen)]
  simp only [checkedAdd_of_lt hfit]
  rw [Act.modify_bind, Act.attempt_bind, Nat.mod_eq_of_lt hfit]
  rcases h.cases with ⟨u, s, hwrite, hQ⟩ | ⟨e, s, hwrite, hQ⟩
  · rw [onStore_ok (by exact hwrite)]
    exact hQ
  · rw [onStore_error (by exact hwrite)]
    cases e with
    | err e => exact hQ _
    | panics _ => exact hQ wal.commit.poison
    | blocked => exact hQ wal.commit.poison

omit [LawfulShipped S] in
/-- A frame that has been written is a record. -/
theorem recordAt_frame {m off : Nat} (hm : m < 2 ^ 32) {record : List UInt8}
    (hlen : record.length ≤ m) {s : S}
    (h : ∀ k < (frame record).length, image s (off + k) = (frame record)[k]?) :
    recordAt (image s) m off = some record := by
  rw [frame_length] at h
  exact (recordAt_eq_some_iff hm).mpr
    ⟨hlen, Image.read_eq_some_iff.mpr ⟨frame_length record, h⟩⟩

theorem Held.append (h : wal.Held) {record : List UInt8}
    (hok : wal.maxRecordSize < record.length ∨ wal.tail + framedLen record.length < 2 ^ 64 ∧
      (wal.Live wal.head ∨
        (WalStore.writeAt wal.tail (encode [] record) wal.store).1.toBool = true)) :
    (Wal.append record).Ends wal (fun _ => Held) fun _ => Held := by
  by_cases hlen : wal.maxRecordSize < record.length
  · exact Act.ends_of_error (append_tooLarge hlen) h
  obtain ⟨hfit, hok⟩ := hok.resolve_left hlen
  rw [Nat.not_lt] at hlen
  have hwrite := @LawfulShipped.writeAt S _ _ _ wal.store wal.tail (frame record) h.usable
    (by rw [frame_length]; exact hfit)
  refine append_write hlen hfit ?_
  rcases hwrite.cases with ⟨u, s, hrun, hr, hframe⟩ | ⟨e, s, hrun, hr⟩
  · refine Act.ends_of_ok hrun ?_
    obtain ⟨hge, hle, hfold, hpending⟩ := Commit.markWritten_between h.committed_le
      (Nat.le_add_right wal.tail (framedLen record.length)) h.pending_le
    refine ⟨h.max_lt, hr.usable, hr.head_eq.trans h.head_eq, hle, hpending, Or.inr ?_⟩
    rcases h.first with ⟨hzero, hblank⟩ | hlive
    · -- The first record of all: it starts at offset 0, where the watermark is.
      have hhead : wal.head = 0 := by
        rw [← h.head_eq]
        exact LawfulShipped.blank_head h.usable hblank
      have hcommitted := h.committed_le
      have hend := hfold (by omega)
      refine ⟨record, ?_, by dsimp only; omega⟩
      show recordAt (image s) wal.maxRecordSize wal.head = some record
      rw [hhead, ← hzero]
      exact recordAt_frame h.max_lt hlen hframe
    · exact hlive.retained h.max_lt hr rfl h.committed_le hge
  · refine Act.ends_of_error hrun fun poison => ?_
    have hlive : wal.Live wal.head := by
      refine hok.resolve_right fun hbool => ?_
      have hrun : WalStore.writeAt wal.tail (encode [] record) wal.store = (.error e, s) := hrun
      rw [hrun] at hbool
      cases hbool
    refine ⟨h.max_lt, hr.usable, hr.head_eq.trans h.head_eq, ?_, fun a b hab => ?_, Or.inr ?_⟩
    · exact Nat.le_trans h.committed_le (Nat.le_add_right _ _)
    · obtain ⟨h1, h2⟩ := h.pending_le a b hab
      exact ⟨h1, Nat.le_trans h2 (Nat.le_add_right _ _)⟩
    · exact hlive.retained h.max_lt hr rfl h.committed_le (Nat.le_refl _)

/-! ## Syncing -/

omit [Shipped S] [LawfulShipped S] in
/-- What depends on the store and on how far the writes have come, and is kept by a flush of
the store, is kept by `sync`. -/
theorem syncRounds_ends {Q : Wal S → Prop}
    (hcommit : ∀ (wal : Wal S) st, Q wal → st.committed = wal.commit.committed →
      st.pending = wal.commit.pending → Q { wal with commit := st })
    (hflush : ∀ wal : Wal S, Q wal → (WalStore.sync : Act S Fault Unit).Ends wal.store
      (fun _ s => Q { wal with store := s }) fun _ s => Q { wal with store := s })
    (rounds target : Nat) (h : Q wal) :
    (syncRounds rounds target).Ends wal (fun _ => Q) fun _ => Q := by
  have hafter : ∀ (w : Wal S) flushTo flushed, Q w →
      Q { w with commit := Commit.afterFlush w.commit flushTo flushed } := by
    intro w flushTo flushed hw
    refine hcommit w _ hw ?_ ?_ <;> unfold Commit.afterFlush <;> dsimp only <;>
      repeat (split <;> try rfl)
  induction rounds generalizing wal with
  | zero => exact Act.ends_fail h
  | succ rounds ih =>
      refine Act.ends_get_bind ?_
      rcases Commit.syncCheck_cases wal.commit target with
        ⟨e, hcheck⟩ | ⟨hcheck, -⟩ | ⟨hcheck, -, -, -⟩ | hcheck <;> rw [hcheck]
      · exact Act.ends_of_error rfl h
      · exact Act.ends_of_ok rfl h
      · have h1 : Q { wal with commit := { wal.commit with syncing := true } } :=
          hcommit wal _ h rfl rfl
        have hsync : (Act.attempt (onStore WalStore.sync)).Ends
            { wal with commit := { wal.commit with syncing := true } } (fun _ => Q)
              fun (_ : Fault) => Q := (hflush _ h1).zoom.attempt
        refine Act.Ends.bind
          (Q := fun _ w => w = { wal with commit := { wal.commit with syncing := true } })
          (Act.ends_of_ok rfl rfl) fun _ w hw => ?_
        subst hw
        refine hsync.bind fun result w hw => ?_
        cases result with
        | ok u =>
            exact Act.Ends.bind (Act.ends_of_ok rfl (hafter w _ true hw)) fun _ w1 h1 => ih h1
        | error e =>
            cases e with
            | err e =>
                exact Act.Ends.bind (Act.ends_of_ok rfl (hafter w _ false hw))
                  fun _ w1 h1 => Act.ends_fail h1
            | panics _ => exact Act.ends_fail hw
            | blocked => exact Act.ends_fail hw
      · exact Act.ends_of_error rfl (hcommit wal _ h rfl rfl)

theorem Held.sync (h : wal.Held) : Wal.sync.Ends wal (fun _ => Held) fun _ => Held := by
  refine Act.ends_get_bind ?_
  by_cases hzero : wal.tail = 0
  · rw [if_pos hzero]
    exact Act.ends_pure h
  · rw [if_neg hzero]
    -- There is something to flush, so the first record is there.
    have hends := syncRounds_ends (Q := fun w : Wal S => w.Held ∧ w.Live w.head)
      (fun w st hw hc hp => ?_) (fun w hw => ?_) 2 wal.tail
      ⟨h, h.first.resolve_left fun hempty => hzero hempty.1⟩
    · exact hends.mono (fun _ _ hw => hw.1) fun _ _ hw => hw.1
    · obtain ⟨hheld, p, hp', hle⟩ := hw
      have hlive : ({ w with commit := st } : Wal S).Live w.head := ⟨p, hp', by rw [hc]; exact hle⟩
      refine ⟨⟨hheld.max_lt, hheld.usable, hheld.head_eq, ?_, ?_, Or.inr hlive⟩, hlive⟩
      · rw [hc]
        exact hheld.committed_le
      · rw [hp]
        exact hheld.pending_le
    · obtain ⟨hheld, hlive⟩ := hw
      have hflushed : ∀ s, Retains w.commit.committed w.store s →
          ({ w with store := s } : Wal S).Held ∧ ({ w with store := s } : Wal S).Live w.head := by
        intro s hr
        have hlive' := hheld.live_onto hlive hr
        exact ⟨hheld.onto hr (Or.inr hlive'), hlive'⟩
      exact (LawfulShipped.sync w.commit.committed hheld.usable).mono (fun _ s hr => hflushed s hr)
        fun _ s hr => hflushed s hr

/-! ## Truncating -/

theorem Kept.truncateBefore (h : wal.Kept) {lsn : Nat}
    (hok : wal.Live wal.head → wal.Live (dropTo lsn wal.store)) :
    (Wal.truncateBefore lsn).Ends wal (fun _ => Held) fun _ => Held := by
  obtain ⟨s', hrun, husable, hhead, hkept, hblank⟩ :=
    LawfulShipped.truncateBefore lsn h.usable h.calm
  refine Act.ends_of_ok (truncateBefore_ok hrun) ?_
  refine ⟨h.max_lt, husable, hhead, h.committed_le, h.pending_le, ?_⟩
  rcases h.first with ⟨hzero, hempty⟩ | hlive
  · exact Or.inl ⟨hzero, hblank hempty⟩
  · obtain ⟨p, hp, hle⟩ := hok hlive
    refine Or.inr ⟨p, ?_, hle⟩
    obtain ⟨hlen, hread⟩ := (recordAt_eq_some_iff h.max_lt).mp hp
    refine (recordAt_eq_some_iff h.max_lt).mpr ⟨hlen, ?_⟩
    rw [← hread]
    exact Image.read_congr fun i _ => hkept _ (Nat.le_add_right _ _)

omit [Shipped S] [LawfulShipped S] in
/-- The checks of `truncate_after` read, and where they pass the new end lies past the LSN. -/
theorem keptEnd_ends {reach : Nat → Nat → Prop} {img : Image UInt8} {P : S → Prop}
    (R : Probes reach img P) (hP : P wal.store) (lsn : Nat) :
    (keptEnd lsn).Ends wal
      (fun newEnd w => (lsn < newEnd ∧ newEnd < 2 ^ 64) ∧ Unmoved P wal w)
      fun _ w => True ∧ Unmoved P wal w := by
  have hany : ∀ off n {w}, Unmoved P wal w →
      (onStore (WalStore.readAt off n)).Ends w (fun _ w' => True ∧ Unmoved P wal w')
        fun _ w' => True ∧ Unmoved P wal w' := fun off n _ hw =>
    onStore_unmoved hw fun {s} hP =>
      have hread : (WalStore.readAt off n).Ends s (fun _ => P) (Refused (fun _ _ => True) reach P) :=
        R.read_any trivial hP
      hread.mono (fun _ _ h => ⟨trivial, h⟩) fun _ _ h => ⟨trivial, h.1⟩
  have hstop : ∀ {w} fault, Unmoved P wal w → (Act.fail fault : Act (Wal S) Fault Nat).Ends w
      (fun newEnd w => (lsn < newEnd ∧ newEnd < 2 ^ 64) ∧ Unmoved P wal w)
      fun _ w => True ∧ Unmoved P wal w := fun _ hw => Act.ends_fail ⟨trivial, hw⟩
  refine Act.ends_get_bind ?_
  refine (hany lsn headerLen ⟨wal.store, rfl, hP⟩).bind ?_
  rintro header w1 ⟨-, hw1⟩
  split
  · exact hstop _ hw1
  dsimp only
  split
  · exact hstop _ hw1
  cases hstart : checkedAdd lsn headerLen with
  | none => exact hstop _ hw1
  | some payloadStart =>
      refine (hany payloadStart (parseHeader header).len hw1).bind ?_
      rintro payload w2 ⟨-, hw2⟩
      split
      · exact hstop _ hw2
      split
      · exact hstop _ hw2
      cases hend : checkedAdd payloadStart (parseHeader header).len with
      | none => exact hstop _ hw2
      | some newEnd =>
          have h1 := checkedAdd_eq_some hstart
          have h2 := checkedAdd_eq_some hend
          have h8 : headerLen = 8 := rfl
          exact Act.ends_pure ⟨⟨by omega, by omega⟩, hw2⟩

/-- The bytes of the store can be read. -/
theorem Kept.serves (h : wal.Kept) :
    ∃ P : S → Prop, Serves (image wal.store) (2 ^ 64 - 1) P ∧ P wal.store := by
  obtain ⟨_, P, R, hP, -⟩ := LawfulShipped.reads h.usable h.calm
  exact ⟨P, ⟨R.full, fun ho => LawfulShipped.image_past wal.store ho, by decide⟩, hP⟩

/-- The new end of a careful `truncate_after` does not cut the first record. -/
theorem Kept.keptEnd_ge (h : wal.Kept) {lsn newEnd : Nat} {w : Wal S} {p : List UInt8}
    (hp : recordAt (image wal.store) wal.maxRecordSize wal.head = some p)
    (hok : lsn = wal.head ∨ wal.head + framedLen p.length ≤ lsn) (hlt : lsn < newEnd)
    (hrun : keptEnd lsn wal = (.ok newEnd, w)) : wal.head + framedLen p.length ≤ newEnd := by
  rcases hok with rfl | hpast
  · obtain ⟨P, V, hP⟩ := h.serves
    have hle := V.frame_le h.max_lt hp
    obtain ⟨hlen, hhdr, hpay⟩ := recordAt_some_reads h.max_lt hp
    obtain ⟨s1, hr1, hP1⟩ := V.full hP hhdr
    obtain ⟨s2, hr2, -⟩ := V.full hP1 hpay
    rw [keptEnd_of_reads h.max_lt hlen (by omega) hr1 hr2] at hrun
    cases hrun
    exact Nat.le_refl _
  · omega

/-- A careful check leaves the log as it was, and where it passes the new end lies past the
first record. -/
theorem Kept.keptEnd (h : wal.Kept) {lsn : Nat}
    (hok : ∀ p ∈ recordAt (image wal.store) wal.maxRecordSize wal.head,
      lsn = wal.head ∨ wal.head + framedLen p.length ≤ lsn) :
    (Wal.keptEnd lsn).Ends wal
      (fun newEnd w => newEnd < 2 ^ 64 ∧ ∃ s p, w = { wal with store := s } ∧ Same wal.store s ∧
        recordAt (image wal.store) wal.maxRecordSize wal.head = some p ∧
        wal.head + framedLen p.length ≤ wal.commit.committed ∧
        wal.head + framedLen p.length ≤ newEnd)
      fun _ => Held := by
  obtain ⟨_, P, R, hP, hsame⟩ := LawfulShipped.reads h.usable h.calm
  rcases (keptEnd_ends R hP lsn).cases with
    ⟨newEnd, w, hrun, ⟨hlt, hmax⟩, s1, rfl, hP1⟩ | ⟨e, w, hrun, -, s1, rfl, hP1⟩
  · refine Act.ends_of_ok hrun ⟨hmax, ?_⟩
    rcases h.first with ⟨-, hblank⟩ | ⟨p, hp, hle⟩
    · -- Nothing is stored, so there is nothing to cut after.
      have hnone := @keptEnd_missing S _ _ P _ R wal lsn
        (recordAt_none_of_past (LawfulShipped.blank_image lsn hblank)) hP
      rw [Act.Ends, hrun] at hnone
      exact hnone.elim
    · exact ⟨s1, p, rfl, hsame s1 hP1, hp, hle, h.keptEnd_ge hp (hok p hp) hlt hrun⟩
  · have ha := hsame s1 hP1
    have hr := ha.retains wal.commit.committed
    refine Act.ends_of_error hrun (h.onto hr ?_)
    rcases h.first with ⟨hzero, hblank⟩ | hlive
    · exact Or.inl ⟨hzero, ha.blank hblank⟩
    · exact Or.inr (h.live_onto hlive hr)

theorem Kept.truncateAfter (h : wal.Kept) {lsn : Nat}
    (hok : ∀ p ∈ recordAt (image wal.store) wal.maxRecordSize wal.head,
      lsn = wal.head ∨ wal.head + framedLen p.length ≤ lsn) :
    (Wal.truncateAfter lsn).Ends wal (fun _ => Held) fun _ => Held := by
  refine (h.keptEnd hok).bind fun newEnd w hend => ?_
  obtain ⟨hmax, s1, p, rfl, ha, hp, hle, hge⟩ := hend
  have hcut : ∀ s, Retains newEnd wal.store s →
      recordAt (image s) wal.maxRecordSize wal.head = some p := fun s hr =>
    recordAt_retained h.max_lt hr hp hge
  -- Where the cut or the flush fails the first record is there as well.
  have hfailed : ∀ s, Retains newEnd wal.store s → ({ wal with store := s } : Wal S).Held :=
    fun s hr => h.onto hr (Or.inr ⟨p, hcut s hr, hle⟩)
  have htrunc : (onStore (WalStore.truncate newEnd)).Ends { wal with store := s1 }
      (fun _ w => ∃ s, w = { wal with store := s } ∧ Retains newEnd wal.store s)
      fun _ => Held := by
    have hhead : recordedHead s1 ≤ newEnd := by
      rw [ha.head_eq, h.head_eq]
      omega
    have hr1 := ha.retains newEnd
    exact ((LawfulShipped.truncate ha.usable ha.calm hhead hmax).mono
      (fun _ s hs => ⟨s, rfl, hr1.trans hs.1 (Nat.le_refl _)⟩)
      fun _ s hr => hfailed s (hr1.trans hr (Nat.le_refl _))).zoom
  refine htrunc.bind fun _ w hw => ?_
  obtain ⟨s2, rfl, hr2⟩ := hw
  have hsync : (onStore WalStore.sync).Ends { wal with store := s2 }
      (fun _ w => ∃ s, w = { wal with store := s } ∧ Retains newEnd wal.store s)
      fun _ => Held :=
    ((LawfulShipped.sync newEnd hr2.usable).mono
      (fun _ s hr => ⟨s, rfl, hr2.trans hr (Nat.le_refl _)⟩)
      fun _ s hr => hfailed s (hr2.trans hr (Nat.le_refl _))).zoom
  refine hsync.bind fun _ w hw => ?_
  obtain ⟨s3, rfl, hr3⟩ := hw
  exact Act.ends_of_ok rfl ⟨h.max_lt, hr3.usable, hr3.head_eq.trans h.head_eq, Nat.le_refl _,
    (fun a b hab => by cases hab), Or.inr ⟨p, hcut s3 hr3, hge⟩⟩

/-! ## Opening -/

/-- The records that an open finds go at least to the end of the first. -/
theorem logEnd_ge {img : Image UInt8} {m size off : Nat} {p : List UInt8} (hlt : off < size)
    (hp : recordAt img m off = some p) : off + framedLen p.length ≤ logEnd img m size off := by
  rw [logEnd_some hlt hp]
  exact Nat.le_add_right _ _

omit [LawfulShipped S] in
theorem openOn_eq_some {config : WalConfig} {s : S} (h : openOn config s = some wal) :
    ∃ s1 t, Shipped.reopen s = .ok s1 ∧ withStoreAndConfig config s1 = (.ok wal, t) := by
  unfold openOn at h
  cases hreopen : Shipped.reopen s with
  | error e =>
      rw [hreopen] at h
      cases h
  | ok s1 =>
      rw [hreopen] at h
      exact ⟨s1, _, rfl, Prod.ext (Act.eq_ok_of_toOption h) rfl⟩

omit [LawfulShipped S] in
/-- A record at the head lies within the store, so an open finds the head. -/
theorem Findable.head_le {config : WalConfig} {s : S} {n : Nat} {P : S → Prop}
    (h : Findable config s) (V : Serves (image s) n P) : recordedHead s ≤ n := by
  rcases h with hzero | hsome
  · omega
  · obtain ⟨p, hp⟩ := Option.isSome_iff_exists.mp hsome
    have := V.frame_le config.maxRecordSize_lt hp
    omega

/-- A store that an open reads, and cuts at `e` unless it ends there, keeps what lies
below. -/
theorem retains_of_cut {s t : S} {n e : Nat} {P : S → Prop}
    (hsame : ∀ t, P t → Usable t ∧ Calm t ∧ recordedHead t = recordedHead s ∧ image t = image s)
    (hblank : n = 0 → ∀ t, P t → Blank t) (hge : recordedHead s ≤ e) (hlt : e < 2 ^ 64)
    (hend : e ≤ n) (hstore : ¬ e < n ∧ P t ∨
      e < n ∧ ∃ s1, P s1 ∧ WalStore.truncate e s1 = (.ok (), t)) :
    Retains e s t ∧ Calm t ∧ (e = 0 → Blank t) := by
  rcases hstore with ⟨hfull, hPt⟩ | ⟨-, s1, hP1, htrunc⟩
  · obtain ⟨husable, hcalm, hhead, himage⟩ := hsame t hPt
    refine ⟨⟨husable, hhead, fun o b _ hb => ?_⟩, hcalm, fun hzero => hblank (by omega) t hPt⟩
    rw [himage]
    exact hb
  · obtain ⟨husable, hcalm, hhead, himage⟩ := hsame s1 hP1
    have hcut := LawfulShipped.truncate husable hcalm (by rw [hhead]; exact hge) hlt
    rw [Act.Ends, htrunc] at hcut
    obtain ⟨hr, hcalm', hzero⟩ := hcut
    refine ⟨⟨hr.usable, hr.head_eq.trans hhead, fun o b ho hb => hr.kept o b ho ?_⟩, hcalm', hzero⟩
    rw [himage]
    exact hb

/-- A log opened on a store that has its first record at the head on record, or that nothing
has been dropped from. -/
theorem kept_of_openOn {config : WalConfig} {s : S} (husable : Usable s) (hcalm : Calm s)
    (hfind : Findable config s) (hopen : openOn config s = some wal) : wal.Kept := by
  obtain ⟨s1, t, hreopen, hrun⟩ := openOn_eq_some hopen
  obtain ⟨n, _, P, V, hP, hhead, hsame, hblank⟩ := LawfulShipped.reopen husable hcalm hreopen
  have hm := config.maxRecordSize_lt
  have hn := hfind.head_le V.serves
  rw [Nat.min_eq_left hn] at hhead
  obtain ⟨hwal, hstore⟩ := open_eq_ok V hP hhead hrun
  have hend : logEnd (image s) config.maxRecordSize n (recordedHead s) ≤ n :=
    logEnd_le hm (fun _ ho => V.past_end ho) hn
  have hge : recordedHead s ≤ logEnd (image s) config.maxRecordSize n (recordedHead s) :=
    Nat.le_add_right _ _
  generalize he : logEnd (image s) config.maxRecordSize n (recordedHead s) = e at *
  obtain ⟨hr, hcalm', hblank'⟩ :=
    retains_of_cut (hsame hn) hblank hge (Nat.lt_of_le_of_lt hend V.size_lt) hend hstore
  subst hwal
  refine ⟨⟨hm, hr.usable, hr.head_eq, Nat.le_refl _, (fun a b hab => by cases hab), ?_⟩, hcalm'⟩
  cases hp : recordAt (image s) config.maxRecordSize (recordedHead s) with
  | none =>
      have hzero : recordedHead s = 0 := hfind.resolve_right (by rw [hp]; decide)
      have hnothing : e = 0 := by rw [← he, logEnd_none fun _ => hp, hzero]
      exact Or.inl ⟨hnothing, hblank' hnothing⟩
  | some p =>
      have hlive : recordedHead s + framedLen p.length ≤ e := by
        rw [← he]
        exact logEnd_ge (by have := V.serves.frame_le hm hp; have := framedLen_pos p.length; omega) hp
      exact Or.inr ⟨p, recordAt_retained hm hr hp hlive, hlive⟩

/-! ## Runs -/

theorem Kept.use {op : UserOp} (h : wal.Kept) (hok : wal.Careful op)
    (hstep : wal.use op = some wal') : wal'.Kept := by
  cases op with
  | append record faults =>
      refine kept_of_returned ((h.toHeld.facing faults).append ?_) hstep
      refine hok.imp id fun hwrite => ⟨hwrite.1, hwrite.2.imp (fun hlive => ?_) id⟩
      exact h.live_facing hlive faults
  | sync faults => exact kept_of_returned (h.toHeld.facing faults).sync hstep
  | truncateBefore lsn => exact kept_of_returned (h.truncateBefore hok) hstep
  | truncateAfter lsn => exact kept_of_returned (h.truncateAfter hok) hstep
  | reopen config => exact kept_of_openOn h.usable h.calm hok hstep

omit [Shipped S] [LawfulShipped S] in
theorem not_yields_of_le (hle : wal.commit.committed ≤ wal.head) (r : Record) :
    ¬ wal.iter.Yields wal r := by
  intro hyields
  have hstop : wal.iter.next wal = (.ok (none, wal.iter), wal) := Iter.next_stop (Or.inr hle)
  cases hyields with
  | here hnext =>
      rw [hstop] at hnext
      cases hnext
  | later hnext _ =>
      rw [hstop] at hnext
      cases hnext

theorem Kept.yields (h : wal.Kept) {p : List UInt8}
    (hp : recordAt (image wal.store) wal.maxRecordSize wal.head = some p)
    (hle : wal.head + framedLen p.length ≤ wal.commit.committed) :
    wal.iter.Yields wal { lsn := wal.head, data := p } := by
  obtain ⟨P, V, hP⟩ := h.serves
  have hpos := framedLen_pos p.length
  obtain ⟨s', hnext, -⟩ := Iter.next_record V h.max_lt (show wal.iter.done = false from rfl)
    (show wal.head < wal.commit.committed by omega) hp hP
  exact .here hnext

theorem Kept.isEmpty_iff (h : wal.Kept) :
    wal.isEmpty = true ↔ ∀ r, ¬ wal.iter.Yields wal r := by
  have hcommitted := h.committed_le
  rw [isEmpty, len, decide_eq_true_eq]
  constructor
  · intro hzero
    exact not_yields_of_le (by omega)
  · intro hnone
    rcases h.first with ⟨hzero, -⟩ | ⟨p, hp, hle⟩
    · exact hzero
    · exact absurd (h.yields hp hle) (hnone _)

end Steps

/-- Open a log on any shipped store and use it in any way, with appends and syncs that fail
among the calls.  As long as every call is careful, `is_empty` says whether there are records:
it is true exactly where the iterator yields none. -/
theorem isEmpty_iff_yields_none {S : Type} [WalStore S] [Shipped S] [LawfulShipped S]
    {config : WalConfig} {store : S} (husable : Usable store) (hcalm : Calm store)
    (hfind : Findable config store) {wal wal' : Wal S} (hopen : openOn config store = some wal)
    {ops : List UserOp} (hcareful : Along use Careful wal ops) (hrun : run use wal ops = some wal') :
    wal'.isEmpty = true ↔ ∀ r, ¬ wal'.iter.Yields wal' r :=
  Kept.isEmpty_iff (run_along (fun _ _ _ hkept hok hstep => hkept.use hok hstep)
    (kept_of_openOn husable hcalm hfind hopen) hcareful hrun)

/-- A segmented store over an empty directory. -/
def newSegments : SegmentedStore where
  dir := Dir.empty
  segmentSize := 16
  handles := []
  maxWritten := 0
  syncedFrom := 0
  head := 0
  dirDirty := false
  parentDirty := false
  segmentSize_pos := by decide

/-- A store over an empty file. -/
def newFile : FileStore := FileStore.ofFile File.empty [] (by decide)

def newMemory : MemStore := ⟨[], by decide⟩

/-- What a run of a log from its open on shows. -/
theorem exists_run_of_decide {S : Type} [WalStore S] [Shipped S] {config : WalConfig} {store : S}
    {ops : List UserOp} {Q : Wal S → Wal S → Prop} [∀ wal wal', Decidable (Q wal wal')]
    (h : ((openOn config store).bind fun wal => (run use wal ops).map fun wal' =>
      decide (Q wal wal')) = some true) :
    ∃ wal wal', openOn config store = some wal ∧ run use wal ops = some wal' ∧ Q wal wal' := by
  obtain ⟨wal, hopen, h⟩ := Option.bind_eq_some_iff.mp h
  obtain ⟨wal', hrun, h⟩ := Option.map_eq_some_iff.mp h
  exact ⟨wal, wal', hopen, hrun, of_decide_eq_true h⟩

/-- A segmented log in which an append fails behind a record and another one is left stranded,
which is cut, filled, compacted and reopened; one file with a failed append; a new log in
memory. -/
theorem isEmpty_iff_yields_none_after_failures :
    (∃ wal wal', openOn smallRecords newSegments = some wal ∧
      run use wal [.append [1] [], .append [2] [true], .append [3] [], .truncateAfter 0,
        .append [4] [], .append [5] [], .truncateBefore 9, .sync [true], .sync [],
        .reopen smallRecords] = some wal' ∧
      (wal'.isEmpty = true ↔ ∀ r, ¬ wal'.iter.Yields wal' r) ∧ wal'.isEmpty = false) ∧
    (∃ wal wal', openOn smallRecords newFile = some wal ∧
      run use wal [.append [1] [], .append [2] [true]] = some wal' ∧
      (wal'.isEmpty = true ↔ ∀ r, ¬ wal'.iter.Yields wal' r) ∧ wal'.isEmpty = false) ∧
    ∃ wal wal', openOn smallRecords newMemory = some wal ∧
      run use wal [.append (List.replicate 101 0) []] = some wal' ∧
      (wal'.isEmpty = true ↔ ∀ r, ¬ wal'.iter.Yields wal' r) ∧ wal'.isEmpty = true := by
  refine ⟨?_, ?_, ?_⟩
  · obtain ⟨wal, wal', hopen, hrun, hcareful, hempty⟩ := exists_run_of_decide (show
      ((openOn smallRecords newSegments).bind fun wal =>
        (run use wal [.append [1] [], .append [2] [true], .append [3] [], .truncateAfter 0,
          .append [4] [], .append [5] [], .truncateBefore 9, .sync [true], .sync [],
          .reopen smallRecords]).map fun wal' =>
            decide (Along use Careful wal [.append [1] [], .append [2] [true], .append [3] [],
              .truncateAfter 0, .append [4] [], .append [5] [], .truncateBefore 9, .sync [true],
              .sync [], .reopen smallRecords] ∧ wal'.isEmpty = false)) = some true by
      decide +kernel)
    have husable : Usable newSegments :=
      ⟨fun i hi => absurd hi List.not_mem_nil, rfl, Nat.le_refl _, by decide⟩
    exact ⟨wal, wal', hopen, hrun,
      isEmpty_iff_yields_none husable rfl (Or.inl rfl) hopen hcareful hrun, hempty⟩
  · obtain ⟨wal, wal', hopen, hrun, hcareful, hempty⟩ := exists_run_of_decide (show
      ((openOn smallRecords newFile).bind fun wal =>
        (run use wal [.append [1] [], .append [2] [true]]).map fun wal' =>
          decide (Along use Careful wal [.append [1] [], .append [2] [true]] ∧
            wal'.isEmpty = false)) = some true by decide +kernel)
    exact ⟨wal, wal', hopen, hrun,
      isEmpty_iff_yields_none trivial rfl (Or.inl rfl) hopen hcareful hrun, hempty⟩
  · obtain ⟨wal, wal', hopen, hrun, hcareful, hempty⟩ := exists_run_of_decide (show
      ((openOn smallRecords newMemory).bind fun wal =>
        (run use wal [.append (List.replicate 101 0) []]).map fun wal' =>
          decide (Along use Careful wal [.append (List.replicate 101 0) []] ∧
            wal'.isEmpty = true)) = some true by decide +kernel)
    exact ⟨wal, wal', hopen, hrun,
      isEmpty_iff_yields_none trivial trivial (Or.inl rfl) hopen hcareful hrun, hempty⟩

/-- A segmented log whose only record has been dropped, and a log over one file whose first
append has failed: neither is empty to `is_empty`, and neither yields a record. -/
theorem isEmpty_false_without_records :
    (∃ wal wal', openOn smallRecords newSegments = some wal ∧
      run use wal [.append [1] [], .truncateBefore 9] = some wal' ∧ wal'.isEmpty = false ∧
      ∀ r, ¬ wal'.iter.Yields wal' r) ∧
    ∃ wal wal', openOn smallRecords newFile = some wal ∧
      run use wal [.append [1] [true]] = some wal' ∧ wal'.isEmpty = false ∧
      ∀ r, ¬ wal'.iter.Yields wal' r := by
  constructor
  · obtain ⟨wal, wal', hopen, hrun, hempty, hle⟩ := exists_run_of_decide (show
      ((openOn smallRecords newSegments).bind fun wal =>
        (run use wal [.append [1] [], .truncateBefore 9]).map fun wal' =>
          decide (wal'.isEmpty = false ∧ wal'.commit.committed ≤ wal'.head)) = some true by
      decide +kernel)
    exact ⟨wal, wal', hopen, hrun, hempty, not_yields_of_le hle⟩
  · obtain ⟨wal, wal', hopen, hrun, hempty, hle⟩ := exists_run_of_decide (show
      ((openOn smallRecords newFile).bind fun wal =>
        (run use wal [.append [1] [true]]).map fun wal' =>
          decide (wal'.isEmpty = false ∧ wal'.commit.committed ≤ wal'.head)) = some true by
      decide +kernel)
    exact ⟨wal, wal', hopen, hrun, hempty, not_yields_of_le hle⟩

end Wal
end WalDb
