/-
An opened log is a list of records, whatever was there before.

A log that has been opened on arbitrary bytes goes on as if the records found there had
been appended one by one.  `Journal` says what that means: it has the records, and a limit
on their size, and knows neither bytes nor watermarks.  A log over any store that answers as
memory does is compared with it: only the first open reads what need not be records, and
there the store is compared with memory.
-/
import WalDb.Backends
import WalDb.Segment.Refine

namespace WalDb

open Lib Record

/-! ## The list of records -/

structure Journal where
  limit : Nat
  records : List (List UInt8)

namespace Journal

/-- The records, each with its offset. -/
def entries (j : Journal) : List (Nat × List UInt8) := located 0 j.records

/-- Where the last record ends. -/
def size (j : Journal) : Nat := (frames j.records).length

def append (j : Journal) (record : List UInt8) : Except Fault Reply × Journal :=
  if j.limit < record.length then (.error (.err (.recordTooLarge record.length j.limit)), j)
  else (.ok (.lsn j.size), { j with records := j.records ++ [record] })

def ask (j : Journal) : Request → Except Fault Reply × Journal
  | .append record => j.append record
  | .appendAndSync record => j.append record
  | .sync => (.ok .done, j)
  | .iter => (.ok (.items (RecordList.items j.entries)), j)
  | .iterFrom lsn =>
      (.ok (.items (RecordList.items (j.entries.filter fun r => decide (lsn ≤ r.1)))), j)
  | .truncateAfter lsn =>
      (.ok .done, { j with records := (j.entries.filter fun r => decide (r.1 ≤ lsn)).map Prod.snd })
  | .truncateBefore _ => (.ok (.head 0), j)
  | .len => (.ok (.size j.size), j)
  | .isEmpty => (.ok (.empty j.records.isEmpty), j)
  | .reopen config => (.ok (.opened 0), { j with limit := config.maxRecordSize })

/-- Memory can hold what is appended, offsets are boundaries between records or past the
end, those given to `truncate_after` are of records, and no reopen has a limit that
excludes a record.  Dropping a prefix is left out. -/
def Names (j : Journal) : Request → Prop
  | .append record => j.size + framedLen record.length < 2 ^ 63
  | .appendAndSync record => j.size + framedLen record.length < 2 ^ 63
  | .iterFrom lsn => ∀ r ∈ j.entries, ¬ (r.1 < lsn ∧ lsn < r.1 + framedLen r.2.length)
  | .truncateAfter lsn => ∃ r ∈ j.entries, r.1 = lsn
  | .truncateBefore _ => False
  | .reopen config => ∀ p ∈ j.records, p.length ≤ config.maxRecordSize
  | _ => True

instance (j : Journal) : ∀ q, Decidable (j.Names q)
  | .append _ | .appendAndSync _ => inferInstanceAs (Decidable (_ < _))
  | .iterFrom lsn =>
      inferInstanceAs (Decidable (∀ r ∈ j.entries, ¬ (r.1 < lsn ∧ lsn < r.1 + framedLen r.2.length)))
  | .truncateAfter lsn => inferInstanceAs (Decidable (∃ r ∈ j.entries, r.1 = lsn))
  | .truncateBefore _ => inferInstanceAs (Decidable False)
  | .reopen config => inferInstanceAs (Decidable (∀ p ∈ j.records, p.length ≤ config.maxRecordSize))
  | .sync | .iter | .len | .isEmpty => inferInstanceAs (Decidable True)

theorem isEmpty_eq (j : Journal) : j.records.isEmpty = decide (j.size = 0) := by
  unfold size
  cases j.records with
  | nil => rfl
  | cons p ps =>
      have hpos := framedLen_pos p.length
      have hne : (frames (p :: ps)).length ≠ 0 := by
        rw [frames_cons, List.length_append, frame_length]
        omega
      rw [decide_eq_false hne]
      rfl

/-- What lies at or past an offset that is brought into the range of the records and found
between two of them. -/
theorem entries_from (j : Journal) {lsn : Nat} {ps1 ps2 : List (List UInt8)}
    (hsplit : j.records = ps1 ++ ps2)
    (hmin : min (max lsn 0) (0 + (frames j.records).length) = 0 + (frames ps1).length) :
    j.entries.filter (fun r => decide (lsn ≤ r.1)) = located (frames ps1).length ps2 := by
  have hge := RecordList.filter_ge 0 ps1 ps2
  rw [← hsplit, Nat.zero_add] at hge
  rw [← hge]
  refine List.filter_congr fun r hr => decide_eq_decide.mpr ?_
  have hbounds := (mem_located_bounds hr).2
  have hpos := framedLen_pos r.2.length
  omega

end Journal

/-! ## The store -/

section Stores

variable {S : Type} {reach : Nat → Prop} {R : S → MemStore → Prop}

/-- The store holds the records and nothing else. -/
def HoldsRecords (R : S → MemStore → Prop) (ps : List (List UInt8)) (s : S) : Prop :=
  ∃ mem, R s mem ∧ mem.data = frames ps

variable {ps : List (List UInt8)} {s : S}

theorem HoldsRecords.size_lt (h : HoldsRecords R ps s) : (frames ps).length < 2 ^ 63 := by
  obtain ⟨mem, -, hdata⟩ := h
  rw [← hdata]
  exact mem.data_lt

variable [WalStore S] [Shipped S]

namespace Mimics

theorem len_eq (M : Mimics reach R) (h : HoldsRecords R ps s) :
    ∃ s', WalStore.len s = (.ok (frames ps).length, s') ∧ HoldsRecords R ps s' := by
  obtain ⟨mem, hR, hdata⟩ := h
  obtain ⟨hres, hpost⟩ := M.len s mem hR
  refine ⟨_, Prod.ext ?_ rfl, mem, hpost, hdata⟩
  rw [hres, ← hdata]
  rfl

theorem head_eq (M : Mimics reach R) (h : HoldsRecords R ps s) :
    ∃ s', WalStore.head s = (.ok 0, s') ∧ HoldsRecords R ps s' := by
  obtain ⟨mem, hR, hdata⟩ := h
  obtain ⟨hres, hpost⟩ := M.head s mem hR
  exact ⟨_, Prod.ext hres rfl, mem, hpost, hdata⟩

theorem sync_eq (M : Mimics reach R) (h : HoldsRecords R ps s) :
    ∃ s', WalStore.sync s = (.ok (), s') ∧ HoldsRecords R ps s' := by
  obtain ⟨mem, hR, hdata⟩ := h
  obtain ⟨hres, hpost⟩ := M.sync s mem hR
  exact ⟨_, Prod.ext hres rfl, mem, hpost, hdata⟩

/-- A record is written behind the last one. -/
theorem write_eq (M : Mimics reach R) (h : HoldsRecords R ps s) {record : List UInt8}
    (hroom : (frames ps).length + framedLen record.length < 2 ^ 63) :
    ∃ s', WalStore.writeAt (frames ps).length (frame record) s = (.ok (), s') ∧
      HoldsRecords R (ps ++ [record]) s' := by
  obtain ⟨mem, hR, hdata⟩ := h
  have hlen : mem.data.length = (frames ps).length := by rw [hdata]
  have hfit : (frames ps).length + (frame record).length < 2 ^ 63 := by rwa [frame_length]
  obtain ⟨mem', hmem⟩ := MemStore.writeAt_end (frame record) hlen hfit
  obtain ⟨hres, hpost⟩ := M.writeAt _ _ hfit s mem ⟨hR, hlen⟩
  rw [hmem] at hres hpost
  refine ⟨_, Prod.ext hres rfl, mem', hpost, ?_⟩
  rw [MemStore.writeAt_data hmem, ← hlen, overwrite_end, hdata, frames_append, frames_cons, frames_nil,
    List.append_nil]

/-- The records from an offset on are cut. -/
theorem truncate_eq (M : Mimics reach R) {ps1 ps2 : List (List UInt8)}
    (h : HoldsRecords R (ps1 ++ ps2) s) :
    ∃ s', WalStore.truncate (frames ps1).length s = (.ok (), s') ∧ HoldsRecords R ps1 s' := by
  obtain ⟨mem, hR, hdata⟩ := h
  rw [frames_append] at hdata
  have hle : (frames ps1).length ≤ mem.data.length := by
    rw [hdata, List.length_append]
    exact Nat.le_add_right _ _
  obtain ⟨hres, hpost⟩ := M.truncate _ _ hle s mem ⟨hR, rfl⟩
  refine ⟨_, Prod.ext hres rfl, _, hpost, ?_⟩
  show mem.data.take _ = _
  rw [hdata, List.take_left]

theorem reopen_eq (M : Mimics reach R) (h : HoldsRecords R ps s) :
    ∃ s', Shipped.reopen s = .ok s' ∧ HoldsRecords R ps s' := by
  obtain ⟨mem, hR, hdata⟩ := h
  obtain ⟨s', hopen, hR'⟩ := M.reopen hR
  exact ⟨s', hopen, mem, hR', hdata⟩

/-- The records can be read, as far as memory can go. -/
theorem serves (M : Mimics reach R) (hreach : ∀ e, e < 2 ^ 63 → reach e)
    (hsize : (frames ps).length < 2 ^ 63) :
    Serves (Image.ofList (frames ps)) (frames ps).length (HoldsRecords R ps) where
  full := by
    rintro s off n bs ⟨mem, hR, hdata⟩ hread
    obtain ⟨hend, hbs⟩ := Image.read_ofList_eq_some hread
    obtain ⟨hres, hpost⟩ := M.readAt off n (hend.imp_right fun hle => hreach _ (by omega)) s mem hR
    rw [MemStore.readAt_eq, hdata, hbs] at hres
    rw [MemStore.readAt_eq] at hpost
    exact ⟨_, Prod.ext hres rfl, mem, hpost, hdata⟩
  past_end ho := List.getElem?_eq_none ho
  size_lt := by omega

end Mimics

end Stores

/-! ## The log -/

namespace Wal

/-- The store holds the records of the list and nothing else. -/
structure Mirrors {S : Type} (R : S → MemStore → Prop) (wal : Wal S) (j : Journal) : Prop
    extends Settled wal where
  max_eq : wal.maxRecordSize = j.limit
  max_lt : j.limit < 2 ^ 32
  head_eq : wal.head = 0
  holds : HoldsRecords R j.records wal.store
  tail_eq : wal.tail = j.size
  short : ∀ p ∈ j.records, p.length ≤ j.limit

section Mirrors

variable {S : Type} {reach : Nat → Prop} {R : S → MemStore → Prop} {wal : Wal S} {j : Journal}

theorem Mirrors.limit_lt (h : wal.Mirrors R j) : wal.maxRecordSize < 2 ^ 32 := by
  rw [h.max_eq]
  exact h.max_lt

theorem Mirrors.intact (h : wal.Mirrors R j) :
    Intact (Image.ofList (frames j.records)) wal.maxRecordSize 0 j.records := by
  refine ⟨fun p hp => by rw [h.max_eq]; exact h.short p hp, ?_⟩
  rw [Image.read_ofList (by rw [Nat.zero_add]), List.drop_zero, List.take_length]

/-- A twin of a log over memory that mirrors the list does so too. -/
theorem Mirrors.of_between {mem : Wal MemStore} (hb : Between R wal mem) (h : mem.Mirrors Eq j) :
    wal.Mirrors R j := by
  obtain ⟨m, k, ht⟩ := hb
  obtain ⟨store, hstore, hdata⟩ := h.holds
  have hcommit := ht.commit_eq
  have htail : wal.tail = mem.tail := ht.tail_eq.trans ht.mem_tail_eq.symm
  have hsettled := h.toSettled
  refine ⟨⟨?_, ?_, ?_, ?_, ?_, ?_⟩, ht.max_eq.trans (ht.mem_max_eq.symm.trans h.max_eq), h.max_lt,
    ht.head_eq.trans h.head_eq, ⟨mem.store, ht.store.1, hstore ▸ hdata⟩, htail.trans h.tail_eq,
    h.short⟩
  · rw [hcommit, htail, hsettled.committed_eq]
  · rw [hcommit, htail]
    exact hsettled.durable_le
  · rw [hcommit, hsettled.pending_eq]
  · rw [hcommit, hsettled.syncing_eq]
  · rw [hcommit, hsettled.poison_eq]
  · rw [hcommit, hsettled.flushFailed_eq]

variable [WalStore S] [Shipped S]

/-- An append that is not too large. -/
theorem Mirrors.append (M : Mimics reach R) (h : wal.Mirrors R j) {record : List UInt8}
    (hlen : record.length ≤ j.limit) (hroom : j.size + framedLen record.length < 2 ^ 63) :
    ∃ s', Wal.append record wal = (.ok j.size, wal.appended record s') ∧
      (wal.appended record s').Mirrors R { j with records := j.records ++ [record] } := by
  have htail := h.tail_eq
  obtain ⟨s', hwrite, hholds⟩ := M.write_eq h.holds hroom
  have hrun := append_ok h.toSettled (by rw [h.max_eq]; exact hlen)
    (show wal.tail + framedLen record.length < 2 ^ 64 by omega) (by rw [htail]; exact hwrite)
  refine ⟨s', by rw [hrun, htail], h.toSettled.appended record s', h.max_eq, h.max_lt, h.head_eq,
    hholds, ?_, ?_⟩
  · show wal.tail + framedLen record.length = (frames (j.records ++ [record])).length
    rw [htail, frames_append, List.length_append]
    simp [Journal.size]
  · intro p hp
    rcases List.mem_append.mp hp with hp | hp
    · exact h.short p hp
    · rw [List.mem_singleton.mp hp]
      exact hlen

theorem Mirrors.sync (M : Mimics reach R) (h : wal.Mirrors R j) :
    ∃ wal', Wal.sync wal = (.ok (), wal') ∧ wal'.Mirrors R j := by
  by_cases hd : wal.commit.durable < wal.tail
  · obtain ⟨s', hsync, hholds⟩ := M.sync_eq h.holds
    refine ⟨_, sync_flush h.toSettled hd hsync, ?_⟩
    exact ⟨h.toSettled.flushed _, h.max_eq, h.max_lt, h.head_eq, hholds, h.tail_eq, h.short⟩
  · exact ⟨wal, sync_done h.toSettled (Nat.not_lt.mp hd), h⟩

variable (M : Mimics reach R) (hreach : ∀ e, e < 2 ^ 63 → reach e)

include M hreach

/-- Iterating from a boundary between two records yields those from there on. -/
theorem Mirrors.collect (h : wal.Mirrors R j) {ps1 ps2 : List (List UInt8)}
    (hsplit : j.records = ps1 ++ ps2) {it : Iter} (hoff : it.offset = (frames ps1).length)
    (hend : it.endAt = wal.tail) (hdone : it.done = false) :
    ∃ wal', it.collect wal = (.ok ((recordsFrom (frames ps1).length ps2).map .ok), wal') ∧
      wal'.Mirrors R j := by
  have hintact := h.intact
  nth_rewrite 2 [hsplit] at hintact
  obtain ⟨-, hintact⟩ := intact_append_iff.mp hintact
  rw [Nat.zero_add, ← hoff] at hintact
  have hstop : it.endAt = it.offset + (frames ps2).length := by
    rw [hend, h.tail_eq, Journal.size, hsplit, frames_append, List.length_append, hoff]
  obtain ⟨s', hrun, hs'⟩ := Iter.collect_intact (M.serves hreach h.holds.size_lt) h.limit_lt it
    hintact hdone hstop h.holds
  rw [hoff] at hrun
  exact ⟨_, hrun, { h with holds := hs' }⟩

/-- `truncate_after` at a record keeps the records up to it. -/
theorem Mirrors.truncateAfter (h : wal.Mirrors R j) {ps1 ps2 : List (List UInt8)} {p : List UInt8}
    (hsplit : j.records = ps1 ++ p :: ps2) :
    ∃ wal', Wal.truncateAfter (frames ps1).length wal = (.ok (), wal') ∧
      wal'.Mirrors R { j with records := ps1 ++ [p] } := by
  have hintact := h.intact
  nth_rewrite 2 [hsplit] at hintact
  obtain ⟨-, hintact⟩ := intact_append_iff.mp hintact
  rw [Nat.zero_add] at hintact
  obtain ⟨hp, -⟩ := (intact_cons_iff h.limit_lt).mp hintact
  obtain ⟨s1, hkept, hs1⟩ := keptEnd_record (M.serves hreach h.holds.size_lt) h.limit_lt hp h.holds
  have hend : (frames ps1).length + framedLen p.length = (frames (ps1 ++ [p])).length := by
    rw [frames_append, List.length_append]
    simp
  have hrest : j.records = (ps1 ++ [p]) ++ ps2 := by
    rw [hsplit, List.append_assoc]
    rfl
  obtain ⟨s2, hcut, hs2⟩ := M.truncate_eq (hrest ▸ hs1)
  obtain ⟨s3, hsync, hs3⟩ := M.sync_eq hs2
  rw [← hend] at hcut
  refine ⟨_, truncateAfter_ok hkept hcut hsync, h.toSettled.cutAt _ _, h.max_eq, h.max_lt, h.head_eq,
    hs3, hend, fun q hq => h.short q ?_⟩
  rw [hrest]
  exact List.mem_append_left _ hq

/-- A log that holds nothing but records is opened as it is, under either policy. -/
theorem Mirrors.reopen (h : wal.Mirrors R j) {s : S} (hs : HoldsRecords R j.records s)
    {config : WalConfig} (hfit : ∀ p ∈ j.records, p.length ≤ config.maxRecordSize) :
    ∃ wal', Wal.withStoreAndConfig config s = (.ok wal', wal'.store) ∧
      wal'.truncatedOnOpen = 0 ∧ wal'.Mirrors R { j with limit := config.maxRecordSize } := by
  have V := M.serves hreach h.holds.size_lt
  have hintact : Intact (Image.ofList (frames j.records)) config.maxRecordSize 0 j.records :=
    ⟨hfit, h.intact.2⟩
  have hps := hintact.payloads_eq config.maxRecordSize_lt (fun o ho => V.past_end ho) (Nat.zero_add _)
  have hend : logEnd (Image.ofList (frames j.records)) config.maxRecordSize
      (frames j.records).length 0 = (frames j.records).length := by
    rw [logEnd, hps, Nat.zero_add]
  obtain ⟨s1, hhead, hs1⟩ := M.head_eq hs
  obtain ⟨s2, hlen, hs2⟩ := M.len_eq hs1
  obtain ⟨s', hs', hopen⟩ := open_whole V config hhead hlen hs2 hend
  exact ⟨_, hopen, rfl, openedLog_settled _ _ _ _ _, rfl, config.maxRecordSize_lt, rfl, hs', rfl,
    hfit⟩

end Mirrors

end Wal

/-! ## Whole programs -/

namespace Handle

section Programs

variable {S : Type} {reach : Nat → Prop} {R : S → MemStore → Prop}

/-- The handle is open on a log that mirrors the list. -/
def Mirrors (R : S → MemStore → Prop) : Handle S → Journal → Prop
  | .isOpen wal, j => wal.Mirrors R j
  | .closed _, _ => False

/-- The same answer, and the two go on together. -/
def Agrees (R : S → MemStore → Prop) (r : Except Fault Reply × Handle S)
    (r' : Except Fault Reply × Journal) : Prop :=
  r.1 = r'.1 ∧ r.2.Mirrors R r'.2

variable [WalStore S] [Shipped S] {wal : Wal S} {j : Journal}

theorem append_agrees (M : Mimics reach R) (h : wal.Mirrors R j) {record : List UInt8}
    (hroom : j.size + framedLen record.length < 2 ^ 63) :
    Agrees R ((Handle.isOpen wal).ask (.append record)) (j.append record) := by
  rw [ask, Journal.append]
  by_cases hlen : j.limit < record.length
  · rw [if_pos hlen, Wal.append_tooLarge (by rw [h.max_eq]; exact hlen), h.max_eq]
    exact ⟨rfl, h⟩
  · rw [if_neg hlen]
    obtain ⟨s', hrun, hnext⟩ := h.append M (Nat.not_lt.mp hlen) hroom
    rw [hrun]
    exact ⟨rfl, hnext⟩

theorem appendAndSync_agrees (M : Mimics reach R) (h : wal.Mirrors R j) {record : List UInt8}
    (hroom : j.size + framedLen record.length < 2 ^ 63) :
    Agrees R ((Handle.isOpen wal).ask (.appendAndSync record)) (j.append record) := by
  rw [ask, Journal.append, Wal.appendAndSync]
  by_cases hlen : j.limit < record.length
  · rw [if_pos hlen, Act.bind_error (Wal.append_tooLarge (by rw [h.max_eq]; exact hlen)), h.max_eq]
    exact ⟨rfl, h⟩
  · rw [if_neg hlen]
    obtain ⟨s', hrun, hnext⟩ := h.append M (Nat.not_lt.mp hlen) hroom
    obtain ⟨wal', hsync, hnext'⟩ := hnext.sync M
    have htail : (wal.appended record s').tail = j.size + framedLen record.length := by
      rw [← h.tail_eq]
      rfl
    have hpos := framedLen_pos record.length
    rw [Wal.sync, Act.get_bind, if_neg (by omega), htail] at hsync
    rw [Act.bind_ok hrun, Act.bind_ok hsync]
    exact ⟨rfl, hnext'⟩

theorem ask_agrees (M : Mimics reach R) (hreach : ∀ e, e < 2 ^ 63 → reach e) {h : Handle S}
    (hm : h.Mirrors R j) {q : Request} (hq : j.Names q) : Agrees R (h.ask q) (j.ask q) := by
  cases h with
  | closed s => exact hm.elim
  | isOpen wal =>
      have hm : wal.Mirrors R j := hm
      have hcommitted : wal.commit.committed = wal.tail := hm.committed_eq
      cases q with
      | append record => exact append_agrees M hm hq
      | appendAndSync record => exact appendAndSync_agrees M hm hq
      | sync =>
          obtain ⟨wal', hrun, hnext⟩ := hm.sync M
          rw [ask, hrun]
          exact ⟨rfl, hnext⟩
      | iter =>
          have hall : j.records = [] ++ j.records := rfl
          have hoff : wal.iter.offset = (frames []).length := hm.head_eq
          obtain ⟨wal', hrun, hnext⟩ := hm.collect M hreach hall hoff hcommitted rfl
          rw [ask, hrun]
          refine ⟨?_, hnext⟩
          show Except.ok (Reply.items _) = .ok (.items _)
          rw [Wal.recordsFrom, List.map_map]
          rfl
      | iterFrom lsn =>
          obtain ⟨ps1, ps2, hsplit, hmin⟩ := located_split 0 lsn j.records hq
          have hoff : (wal.iterFrom lsn).offset = (frames ps1).length := by
            show min (max lsn wal.head) wal.commit.committed = _
            rw [hm.head_eq, hcommitted, hm.tail_eq, Journal.size, ← Nat.zero_add (frames ps1).length,
              ← hmin, Nat.zero_add]
          obtain ⟨wal', hrun, hnext⟩ := hm.collect M hreach hsplit hoff hcommitted rfl
          rw [ask, Journal.ask, hrun, j.entries_from hsplit hmin]
          refine ⟨?_, hnext⟩
          show Except.ok (Reply.items _) = .ok (.items _)
          rw [Wal.recordsFrom, List.map_map]
          rfl
      | truncateAfter lsn =>
          obtain ⟨r, hr, rfl⟩ := hq
          obtain ⟨ps1, ps2, hsplit, hlsn⟩ := located_mem_split hr
          rw [Nat.zero_add] at hlsn
          obtain ⟨wal', hrun, hnext⟩ := hm.truncateAfter M hreach hsplit
          rw [ask, Journal.ask, hlsn, hrun]
          refine ⟨rfl, ?_⟩
          have hkept := RecordList.filter_le 0 ps1 r.2 ps2
          rw [Nat.zero_add, ← hsplit] at hkept
          show wal'.Mirrors R _
          rw [Journal.entries, hkept, located_map_snd]
          exact hnext
      | truncateBefore lsn => exact hq.elim
      | len => exact ⟨congrArg (fun n => Except.ok (Reply.size n)) hm.tail_eq, hm⟩
      | isEmpty =>
          refine ⟨?_, hm⟩
          show Except.ok (Reply.empty (decide (wal.tail = 0))) = .ok (.empty j.records.isEmpty)
          rw [hm.tail_eq, j.isEmpty_eq]
      | reopen config =>
          obtain ⟨s, hs, hholds⟩ := M.reopen_eq hm.holds
          obtain ⟨wal', hopen, hcut, hnext⟩ := hm.reopen M hreach hholds hq
          rw [ask, Handle.reopen, hs]
          dsimp only
          rw [hopen]
          refine ⟨?_, hnext⟩
          show Except.ok (Reply.opened wal'.truncatedOnOpen) = _
          rw [hcut]
          rfl

/-- What a program that goes on from there is told. -/
theorem Mirrors.answers (M : Mimics reach R) (hreach : ∀ e, e < 2 ^ 63 → reach e) {h : Handle S}
    (hm : h.Mirrors R j) {requests : List Request}
    (hnames : Throughout Journal.ask Journal.Names j requests) :
    Lib.answers Handle.ask h requests = Lib.answers Journal.ask j requests := by
  have hstep : ∀ (h : Handle S) j q, h.Mirrors R j → j.Names q → True →
      (h.ask q).1 = (j.ask q).1 ∧ (h.ask q).2.Mirrors R (j.ask q).2 :=
    fun _ _ _ hm hq _ => ask_agrees M hreach hm hq
  exact answers_eq _ hstep hm hnames fun _ _ => trivial

omit [WalStore S] [Shipped S] in
theorem Mirrors.of_twin {h : Handle S} {h' : Handle MemStore} (ht : h.Twin R h')
    (hm : h'.Mirrors Eq j) : h.Mirrors R j := by
  cases h' with
  | closed mem => exact hm.elim
  | isOpen mem =>
      cases h with
      | closed s => exact ht.elim
      | isOpen wal => exact Wal.Mirrors.of_between ht hm

end Programs

/-- A successful open leaves the records that it has found, and nothing else. -/
theorem reopen_mirrors {mem : MemStore} {config : WalConfig} {cut : Nat}
    (h : ((Handle.closed mem).ask (.reopen config)).1 = .ok (.opened cut)) :
    let ps := payloads (Image.ofList mem.data) config.maxRecordSize mem.data.length 0
    ((Handle.closed mem).ask (.reopen config)).2.Mirrors Eq ⟨config.maxRecordSize, ps⟩ ∧
      (frames ps).length + cut = mem.data.length ∧ frames ps <+: mem.data := by
  intro ps
  have V := MemStore.flat.view mem
  have hintact : Intact (Image.ofList mem.data) config.maxRecordSize 0 ps :=
    intact_payloads config.maxRecordSize_lt 0
  have hle : 0 + (frames ps).length ≤ mem.data.length :=
    logEnd_le config.maxRecordSize_lt (fun o ho => V.past_end ho) (Nat.zero_le _)
  have htake : mem.data.take (frames ps).length = frames ps := by
    have hread := hintact.2
    rw [Image.read_ofList hle, List.drop_zero] at hread
    exact Option.some.inj hread
  rw [ask, Handle.reopen, show (Shipped.reopen mem : Except Fault MemStore) = .ok mem from rfl] at h ⊢
  dsimp only at h ⊢
  cases hrun : Wal.withStoreAndConfig config mem with
  | mk r t =>
      rw [hrun] at h
      cases r with
      | error fault => cases h
      | ok wal =>
          obtain ⟨hwal, hstore⟩ := open_eq_ok V.sight rfl rfl hrun
          have hend : logEnd (Image.ofList mem.data) config.maxRecordSize mem.data.length 0 =
              (frames ps).length := Nat.zero_add _
          rw [hend] at hwal hstore
          have hdata : t.data = frames ps := by
            rcases hstore with ⟨hge, rfl⟩ | ⟨-, s1, rfl, htrunc⟩
            · rw [← htake, List.take_of_length_le (Nat.not_lt.mp hge)]
            · cases htrunc
              exact htake
          have hcut : mem.data.length - (frames ps).length = cut := by
            rw [hwal] at h
            cases h
            rfl
          refine ⟨?_, by omega, htake ▸ List.take_prefix _ _⟩
          show wal.Mirrors Eq _
          rw [hwal]
          exact ⟨openedLog_settled _ _ _ _ _, rfl, config.maxRecordSize_lt, rfl, ⟨t, rfl, hdata⟩, rfl,
            hintact.1⟩

end Handle

/-- Memory is like itself. -/
theorem MemStore.mimics : Mimics (fun _ => True) (Eq : MemStore → MemStore → Prop) where
  down _ _ := trivial
  readAt _ _ _ := Act.lockstep_eq _
  sync := Act.lockstep_eq _
  len := Act.lockstep_eq _
  head := Act.lockstep_eq _
  writeAt _ _ _ s mem h := Act.lockstep_eq _ s mem h.1
  truncate _ _ _ s mem h := Act.lockstep_eq _ s mem h.1
  reopen h := ⟨_, rfl, h⟩

/-- The open of a store that holds what memory holds answers as that of memory does, and what
comes after it is answered by the list of the records that it has found. -/
theorem Mimics.answers_opened {S : Type} [WalStore S] [Shipped S] {reach : Nat → Prop}
    {R : S → MemStore → Prop} (M : Mimics reach R) (hreach : ∀ e, e < 2 ^ 63 → reach e) {s : S}
    {mem : MemStore} (hR : R s mem) {config : WalConfig}
    (hfirst : reach (mem.data.length + headerLen + config.maxRecordSize)) {cut : Nat}
    (hopen : ((Handle.closed mem).ask (.reopen config)).1 = .ok (.opened cut))
    {requests : List Request}
    (hnames : Throughout Journal.ask Journal.Names ⟨config.maxRecordSize,
      payloads (Image.ofList mem.data) config.maxRecordSize mem.data.length 0⟩ requests) :
    answers Handle.ask (.closed s) (.reopen config :: requests) =
      .ok (.opened cut) :: answers Journal.ask ⟨config.maxRecordSize,
        payloads (Image.ofList mem.data) config.maxRecordSize mem.data.length 0⟩ requests := by
  obtain ⟨hm, -, -⟩ := Handle.reopen_mirrors hopen
  obtain ⟨hanswer, htwin⟩ := Handle.reopen_eq M config hR hfirst
  have hm' := Handle.Mirrors.of_twin htwin hm
  rw [answers, ← hm'.answers M hreach hnames]
  exact congrArg (· :: _) (hanswer.trans hopen)

/-- So it is over each of the stores. -/
theorem answers_opened {mem : MemStore} {config : WalConfig} {cut : Nat}
    (hopen : ((Handle.closed mem).ask (.reopen config)).1 = .ok (.opened cut))
    {requests : List Request}
    (hnames : Throughout Journal.ask Journal.Names ⟨config.maxRecordSize,
      payloads (Image.ofList mem.data) config.maxRecordSize mem.data.length 0⟩ requests) :
    let told := .ok (.opened cut) :: answers Journal.ask ⟨config.maxRecordSize,
      payloads (Image.ofList mem.data) config.maxRecordSize mem.data.length 0⟩ requests
    answers Handle.ask (.closed mem) (.reopen config :: requests) = told ∧
      (mem.data.length + headerLen + config.maxRecordSize < 2 ^ 63 →
        ∀ s : FileStore, s.faults = [] → s.file.written = mem.data →
        answers Handle.ask (.closed s) (.reopen config :: requests) = told) ∧
      ∀ size, 0 < size → ∀ created, ∃ s0 s,
        SegmentedStore.openDir size created Dir.empty = (.ok s0, Dir.empty) ∧
        WalStore.writeAt 0 mem.data s0 = (.ok (), s) ∧
        answers Handle.ask (.closed s) (.reopen config :: requests) = told := by
  intro told
  refine ⟨?_, fun hfirst s hcalm hdata => ?_, fun size hsize created => ?_⟩
  · exact MemStore.mimics.answers_opened (fun _ _ => trivial) rfl trivial hopen hnames
  · exact FileStore.mimics.answers_opened (fun _ he => he) ⟨hcalm, hdata⟩ hfirst hopen hnames
  · obtain ⟨s0, s, hdir, hwrite, hholding⟩ := SegmentedStore.exists_holding hsize created mem
    have hlt := mem.data_lt
    have hmax := config.maxRecordSize_lt
    have h8 : headerLen = 8 := rfl
    exact ⟨s0, s, hdir, hwrite, (SegmentedStore.mimics size).answers_opened
      (fun _ he => Or.inl (by omega)) hholding (Or.inl (by omega)) hopen hnames⟩

/-- An opened log is a list of records, whatever was there before.  Take any bytes in memory,
in one file or striped over segments, that opens under either policy.  It opens with the
records `ps` that it finds at the start and has cut all the rest; and from then on it
answers every program, reopens among it, as the list does that starts with these records,
if the program names offsets of records, never lowers the size limit below one of them,
and does not drop a prefix.  One file must end a record before the largest offset, since the
first open can read that far. -/
theorem opened_log_is_record_list (mem : MemStore) (config : WalConfig) (cut : Nat)
    (hopen : ((Handle.closed mem).ask (.reopen config)).1 = .ok (.opened cut)) :
    let ps := payloads (Image.ofList mem.data) config.maxRecordSize mem.data.length 0
    frames ps <+: mem.data ∧ (frames ps).length + cut = mem.data.length ∧
    ∀ requests, Throughout Journal.ask Journal.Names ⟨config.maxRecordSize, ps⟩ requests →
      let told := .ok (.opened cut) :: answers Journal.ask ⟨config.maxRecordSize, ps⟩ requests
      answers Handle.ask (.closed mem) (.reopen config :: requests) = told ∧
      (mem.data.length + headerLen + config.maxRecordSize < 2 ^ 63 →
        ∀ s : FileStore, s.faults = [] → s.file.written = mem.data →
        answers Handle.ask (.closed s) (.reopen config :: requests) = told) ∧
      ∀ size, 0 < size → ∀ created, ∃ s0 s,
        SegmentedStore.openDir size created Dir.empty = (.ok s0, Dir.empty) ∧
        WalStore.writeAt 0 mem.data s0 = (.ok (), s) ∧
        answers Handle.ask (.closed s) (.reopen config :: requests) = told := by
  intro ps
  obtain ⟨-, hcut, hpre⟩ := Handle.reopen_mirrors hopen
  exact ⟨hpre, hcut, fun requests hnames => answers_opened hopen hnames⟩

/-- Two records and a torn third one, opened under the strict policy.  The second is cut away
again, another takes its place, and a lenient open with a smaller limit finds both. -/
theorem opened_log_is_record_list_torn_tail :
    let mem : MemStore := ⟨frame [7] ++ frame [8, 9] ++ [3, 0, 0], by decide +kernel⟩
    let config := WalConfig.new.withOpenPolicy .strict
    let requests : List Request := [.truncateAfter 0, .append [1, 2, 3], .len, .iterFrom 9,
      .reopen ⟨3, .skipBadRecords, .truncateTail, by decide⟩, .append [1, 2, 3, 4], .iter]
    answers Handle.ask (.closed mem) (.reopen config :: requests) =
        .ok (.opened 3) :: answers Journal.ask ⟨config.maxRecordSize, [[7], [8, 9]]⟩ requests ∧
      answers Journal.ask ⟨config.maxRecordSize, [[7], [8, 9]]⟩ requests =
        [.ok .done, .ok (.lsn 9), .ok (.size 20), .ok (.items [.ok ⟨9, [1, 2, 3]⟩]),
          .ok (.opened 0), .error (.err (.recordTooLarge 4 3)),
          .ok (.items [.ok ⟨0, [7]⟩, .ok ⟨9, [1, 2, 3]⟩])] := by
  intro mem config requests
  have hps : payloads (Image.ofList mem.data) config.maxRecordSize mem.data.length 0 =
      [[7], [8, 9]] := by decide +kernel
  have hmain := (opened_log_is_record_list mem config 3 (by decide +kernel)).2.2 requests
    (by rw [hps]; decide +kernel)
  rw [hps] at hmain
  exact ⟨hmain.1, by decide +kernel⟩

end WalDb
