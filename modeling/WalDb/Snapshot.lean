/-
Concurrent appends tile the log, and an iterator sees a snapshot of it.

A run is observed through two events: an append reserves its range, and an append
has settled its range and returns.  The reservations tile the log from where the
open left it, in the order in which they are made, so an append that starts after
another has returned lies above it.

An iterator reads while the other threads go on.  `Live` is the store it reads
from: before every single byte the threads take any steps at all.  What saves the
iterator is that a written record stays written: whatever the log grows to, the
frames below the watermark it started with are still in the store.
-/
import WalDb.TruncateAfter

namespace WalDb

open Lib Record

/-- What a run shows of the appends in it. -/
inductive Event where
  | called (lsn : Nat) (record : List UInt8)
  | returned (lsn : Nat) (ok : Bool)
  deriving DecidableEq, Repr

/-- An append that returns before another reserves has the smaller LSN. -/
def Event.Ordered : Event → Event → Prop
  | .returned a _, .called b _ => a < b
  | _, _ => True

def Event.reservation : Event → Option (Nat × List UInt8)
  | .called lsn record => some (lsn, record)
  | .returned _ _ => none

namespace Sys

/-- The event of an action, if it has one. -/
def observe (s : Sys) : Action → List Event
  | .append t record _ =>
      match s.threads t with
      | .idle => if s.wal.maxRecordSize < record.length then [] else [.called s.wal.tail record]
      | _ => []
  | .mark t =>
      match s.threads t with
      | .marking start _ ok _ => [.returned start ok]
      | .overflowed start => [.returned start false]
      | _ => []
  | _ => []

end Sys

/-- A system with the events of its run so far. -/
structure Traced where
  sys : Sys
  events : List Event

namespace Traced

def step (u : Traced) (a : Action) : Option Traced :=
  (u.sys.step a).map fun s => { sys := s, events := u.events ++ u.sys.observe a }

def opened (wal : Wal HeadStore) : Traced := { sys := Sys.opened wal, events := [] }

/-- The ranges reserved by appends, each with its payload. -/
def reservations (u : Traced) : List (Nat × List UInt8) := u.events.filterMap Event.reservation

/-- The recovered records and the reserved ones that end at or below `limit`. -/
def recordsBelow (wal : Wal HeadStore) (u : Traced) (limit : Nat) : List Wal.Record :=
  ((located wal.head (Sys.opened wal).log ++ u.reservations).filter fun r =>
    decide (r.1 + framedLen r.2.length ≤ limit)).map fun r => { lsn := r.1, data := r.2 }

end Traced

/-! ## What a step does to the reservations -/

namespace Sys

/-- Nothing that the reservations are made of has changed. -/
structure Quiet (s s' : Sys) : Prop where
  log_eq : s'.log = s.log
  tail_eq : s'.wal.tail = s.wal.tail
  status_eq : s'.status = s.status

theorem Quiet.round {s s' : Sys} (h : Quiet s s') (t target : Nat) :
    Quiet s (s'.round t target) := by
  obtain ⟨st, pc, acks, heq⟩ := s'.round_eq t target
  rw [heq]
  exact ⟨h.1, h.2, h.3⟩

/-- The three things a step can do, with what is seen of each. -/
inductive Moves (s s' : Sys) : List Event → Prop
  | reserve (t : Nat) (record : List UInt8) (thenSync : Bool)
      (fits : record.length ≤ s.wal.maxRecordSize) (eq : s' = s.reserve t record thenSync) :
      Moves s s' [.called s.wal.tail record]
  | settle (t start : Nat) (ok : Bool) (owns : (s.threads t).owns = some start)
      (log_eq : s'.log = s.log) (tail_eq : s'.wal.tail = s.wal.tail)
      (status_eq : s'.status =
        Commit.setStatus s.status start (if ok then .written else .failed)) :
      Moves s s' [.returned start ok]
  | quiet (same : Quiet s s') : Moves s s' []

theorem step_moves {s s' : Sys} {a : Action} (h : step s a = some s') :
    Moves s s' (observe s a) := by
  cases takes_of_step h with
  | refuse ht hlen =>
      simp only [observe, ht, if_pos hlen]
      exact .quiet ⟨rfl, rfl, rfl⟩
  | reserve ht hlen =>
      simp only [observe, ht, if_neg (Nat.not_lt.mpr hlen)]
      exact .reserve _ _ _ hlen rfl
  | markOk ht =>
      simp only [observe, ht]
      exact .settle _ _ true (by rw [ht]; rfl) rfl rfl rfl
  | markErr ht | markOverflow ht =>
      simp only [observe, ht]
      exact .settle _ _ false (by rw [ht]; rfl) rfl rfl rfl
  | enter | wake | relockOk =>
      refine .quiet (Quiet.round ?_ _ _)
      exact ⟨rfl, rfl, rfl⟩
  | _ => exact .quiet ⟨rfl, rfl, rfl⟩

/-- The range a thread owns is reserved and in flight. -/
theorem Inv.owned_inflight {s : Sys} (h : Inv s) {t start : Nat}
    (howns : (s.threads t).owns = some start) :
    s.status start = .inflight ∧ ∃ p, (start, p) ∈ s.records := by
  have hth := h.thread t
  cases hpc : s.threads t <;> rw [hpc] at howns hth <;> cases howns
  · exact hth.elim
  · exact ⟨hth.2.1, _, hth.1⟩
  · exact ⟨hth.2.1, _, hth.1⟩

/-! ## Written records stay -/

/-- The log has grown, and every record that was written still is. -/
structure Grows (s s' : Sys) : Prop where
  head_eq : s'.wal.head = s.wal.head
  max_eq : s'.wal.maxRecordSize = s.wal.maxRecordSize
  log : s.log <+: s'.log
  written : ∀ r ∈ s.records, s.status r.1 = .written → s'.status r.1 = .written

theorem Grows.refl (s : Sys) : Grows s s :=
  ⟨rfl, rfl, List.prefix_refl _, fun _ _ h => h⟩

theorem Grows.records {s s' : Sys} (h : Grows s s') {r : Nat × List UInt8} (hr : r ∈ s.records) :
    r ∈ s'.records := by
  unfold Sys.records
  rw [h.head_eq]
  exact (located_initial h.log).subset hr

theorem Grows.trans {s s' s'' : Sys} (h : Grows s s') (h' : Grows s' s'') : Grows s s'' where
  head_eq := h'.head_eq.trans h.head_eq
  max_eq := h'.max_eq.trans h.max_eq
  log := h.log.trans h'.log
  written r hr hw := h'.written r (h.records hr) (h.written r hr hw)

theorem Inv.step_grows {s s' : Sys} (h : Inv s) {a : Action}
    (hstep : Sys.step s a = some s') : Grows s s' := by
  have hsame := step_sameLog hstep
  have hmove := step_moves hstep
  generalize observe s a = es at hmove
  refine ⟨hsame.head_eq, hsame.max_eq, ?_, fun r hr hw => ?_⟩
  · cases hmove with
    | reserve t record ts fits eq =>
        rw [eq]
        exact List.prefix_append _ _
    | settle t start ok owns log_eq => rw [log_eq]
    | quiet same => rw [same.log_eq]
  · cases hmove with
    | reserve t record ts fits eq =>
        have hlt := (h.record_bounds hr).2
        have hpos := framedLen_pos r.2.length
        rw [eq]
        exact (Commit.setStatus_ne _ _ (by omega)).trans hw
    | settle t start ok owns log_eq tail_eq status_eq =>
        -- The settled range was in flight, so it is not this one.
        have hne : r.1 ≠ start := by
          intro heq
          rw [heq, (h.owned_inflight owns).1] at hw
          cases hw
        rw [status_eq, Commit.setStatus_ne _ _ hne, hw]
    | quiet same => rw [same.status_eq, hw]

/-! ## An iterator among the other threads -/

/-- Take a step if it is possible. -/
def act (s : Sys) (a : Action) : Sys := (s.step a).getD s

/-- Take each step that is possible when its turn comes. -/
def actAll (s : Sys) (acts : List Action) : Sys := acts.foldl act s

theorem act_cases (s : Sys) (a : Action) : s.act a = s ∨ s.step a = some (s.act a) := by
  unfold act
  cases h : s.step a with
  | none => exact Or.inl rfl
  | some s' => exact Or.inr rfl

theorem reserved_le_actAll (s : Sys) (acts : List Action) :
    s.reserved ≤ (s.actAll acts).reserved := by
  induction acts generalizing s with
  | nil => exact Nat.le_refl _
  | cons a acts ih =>
      refine Nat.le_trans ?_ (ih (s.act a))
      rcases s.act_cases a with heq | hstep
      · rw [heq]
      · exact (step_sameLog hstep).reserved_ge

/-- Whatever the threads do, the invariant holds and the written records stay. -/
theorem Inv.actAll {s : Sys} (h : Inv s) {acts : List Action}
    (hres : (s.actAll acts).reserved < 2 ^ 64) :
    Inv (s.actAll acts) ∧ Grows s (s.actAll acts) := by
  induction acts generalizing s with
  | nil => exact ⟨h, .refl s⟩
  | cons a acts ih =>
      have hnext : Inv (s.act a) ∧ Grows s (s.act a) := by
        rcases s.act_cases a with heq | hstep
        · rw [heq]
          exact ⟨h, .refl s⟩
        · have hle := reserved_le_actAll (s.act a) acts
          exact ⟨h.step hstep (Nat.lt_of_le_of_lt hle hres), h.step_grows hstep⟩
      obtain ⟨hinv, hgrows⟩ := ih hnext.1 hres
      exact ⟨hinv, hnext.2.trans hgrows⟩

end Sys

/-- The store of a log that other threads are using: what they do before the next
byte is read, before the one after it, and so on. -/
structure Live where
  sys : Sys
  schedule : List (List Action)

namespace Live

/-- The other threads move. -/
def tick (l : Live) : Live where
  sys := l.sys.actAll (l.schedule.headD [])
  schedule := l.schedule.tail

/-- Read byte by byte, up to the end of the store. -/
def bytes : Nat → Nat → Live → List UInt8 × Live
  | _, 0, l => ([], l)
  | off, n + 1, l =>
      match l.tick.sys.wal.store.data[off]? with
      | none => ([], l.tick)
      | some b =>
          let r := bytes (off + 1) n l.tick
          (b :: r.1, r.2)

/-- An operation on the store that the other threads see done at once. -/
def onDisk {α : Type} (x : Act Disk Fault α) : Act Live Fault α := fun l =>
  let r := x l.sys.wal.store
  (r.1, { l with sys := l.sys.withStore r.2 })

instance : WalStore Live where
  writeAt offset bytes := onDisk (WalStore.writeAt offset bytes)
  readAt offset n l := (.ok (bytes offset n l).1, (bytes offset n l).2)
  truncate len := onDisk (WalStore.truncate len)
  sync := onDisk WalStore.sync
  len := onDisk WalStore.len

/-- The store after everything the schedule holds. -/
def final (l : Live) : Sys := l.sys.actAll l.schedule.flatten

theorem tick_final (l : Live) : l.tick.final = l.final := by
  unfold tick final Sys.actAll
  rw [← List.foldl_append]
  cases l.schedule <;> rfl

/-- The store has grown from `s`, and the offsets fit to the end of the schedule. -/
structure From (s : Sys) (l : Live) : Prop where
  inv : Sys.Inv l.sys
  grows : Sys.Grows s l.sys
  fits : l.final.reserved < 2 ^ 64

theorem From.tick {s : Sys} {l : Live} (h : From s l) : From s l.tick := by
  have hfits : l.tick.final.reserved < 2 ^ 64 := by
    rw [tick_final]
    exact h.fits
  have hle := Sys.reserved_le_actAll l.tick.sys l.tick.schedule.flatten
  obtain ⟨hinv, hgrows⟩ := h.inv.actAll (Nat.lt_of_le_of_lt hle hfits)
  exact ⟨hinv, h.grows.trans hgrows, hfits⟩

end Live

namespace Sys

/-- The bytes of the records below the watermark. -/
def committedImage (s : Sys) : Image UInt8 := fun o =>
  if s.wal.head ≤ o ∧ o < s.wal.commit.committed then s.wal.store.data[o]? else none

theorem committedImage_some {s : Sys} {o : Nat} {b : UInt8} (h : s.committedImage o = some b) :
    s.wal.head ≤ o ∧ o < s.wal.commit.committed ∧ s.wal.store.data[o]? = some b := by
  unfold committedImage at h
  split at h
  · rename_i hin
    exact ⟨hin.1, hin.2, h⟩
  · cases h

/-- A log that has grown still has the bytes below the watermark it had. -/
theorem Grows.byte {s s' : Sys} (h : Inv s) (h' : Inv s') (hgrows : Grows s s') {o : Nat} {b : UInt8}
    (hb : s.committedImage o = some b) : s'.wal.store.data[o]? = some b := by
  obtain ⟨hlo, hhi, hget⟩ := committedImage_some hb
  have htile := ranges_tiles h
  -- The record that the byte is of is written in both.
  obtain ⟨q, hq, hqlo, hqhi⟩ := htile.exists_mem hlo
    (Nat.lt_of_lt_of_le hhi (h.tracks.committed_le_end htile))
  obtain ⟨r, hr, hrlo, hrhi⟩ := exists_of_mem_spans hq
  have hw : s.status r.1 = .written := by
    rw [← hrlo]
    exact h.tracks.below q hq (by omega)
  obtain ⟨hread, -⟩ := h.holds r hr hw
  obtain ⟨hread', -⟩ := h'.holds r (hgrows.records hr) (hgrows.written r hr hw)
  have hbyte := (Image.read_eq_some_iff.mp hread).2 (o - r.1) (by omega)
  have hbyte' := (Image.read_eq_some_iff.mp hread').2 (o - r.1) (by omega)
  rw [← hbyte, Nat.add_sub_cancel' (by omega)] at hbyte'
  exact hbyte'.trans hget

end Sys

namespace Live

variable {s : Sys}

/-- Reading what was below the watermark gives it back, whatever the other threads
do meanwhile. -/
theorem From.bytes (hs : Sys.Inv s) {l : Live} (h : From s l) {off n : Nat} {bs : List UInt8}
    (hread : s.committedImage.read off n = some bs) :
    ∃ l', bytes off n l = (bs, l') ∧ From s l' := by
  induction n generalizing off bs l with
  | zero =>
      cases hread
      exact ⟨l, rfl, h⟩
  | succ n ih =>
      obtain ⟨b, hb, hrest⟩ := Option.bind_eq_some_iff.mp hread
      obtain ⟨bs', hbs', rfl⟩ := Option.map_eq_some_iff.mp hrest
      have htick := h.tick
      have hget := htick.grows.byte hs htick.inv hb
      obtain ⟨l', hl', hfrom⟩ := ih htick hbs'
      refine ⟨l', ?_, hfrom⟩
      simp only [Live.bytes, hget, hl']

theorem serves (hs : Sys.Inv s) (hres : s.reserved < 2 ^ 64) :
    Serves s.committedImage s.wal.commit.committed (From s) where
  full h hread := by
    obtain ⟨l', hl', hfrom⟩ := h.bytes hs hread
    refine ⟨l', ?_, hfrom⟩
    show (Except.ok (Live.bytes _ _ _).1, (Live.bytes _ _ _).2) = _
    rw [hl']
  past_end ho := if_neg (by omega)
  size_lt := by
    have := hs.tracks.committed_le_end (Sys.ranges_tiles hs)
    have := hs.reserved_eq
    omega

end Live

namespace Sys

/-- The log as an iterator has it that reads while the others go on. -/
def beside (s : Sys) (schedule : List (List Action)) : Wal Live where
  tail := s.wal.tail
  store := { sys := s, schedule := schedule }
  maxRecordSize := s.wal.maxRecordSize
  recoveryPolicy := s.wal.recoveryPolicy
  head := s.wal.head
  commit := s.wal.commit
  truncatedOnOpen := s.wal.truncatedOnOpen

/-- The records below the watermark are an initial part of the log that ends there. -/
theorem Inv.committed_records {s : Sys} (h : Inv s) :
    ∃ qs, (s.records.filter fun r => decide (r.1 + framedLen r.2.length ≤
        s.wal.commit.committed)) = located s.wal.head qs ∧
      s.wal.commit.committed = s.wal.head + (frames qs).length ∧
      Intact s.committedImage s.wal.maxRecordSize s.wal.head qs := by
  obtain ⟨qs, hqs, hfilter⟩ := located_filter s.wal.head s.wal.commit.committed s.log
  have hkeep := mem_of_located_filter hfilter
  have hbase := h.tracks.base_le (ranges_tiles h)
  refine ⟨qs, hfilter, ?_, h.intact_below (Nat.le_refl _) hqs (fun r hr => (hkeep r).mp hr)
    (fun o hlo hhi => if_pos ⟨hlo, hhi⟩) (Nat.le_refl _)⟩
  refine Nat.le_antisymm ?_ (located_end_le hbase fun r hr => ((hkeep r).mp hr).2)
  -- The watermark is the head or the end of a record, which is then among them.
  rcases h.tracks.boundary with heq | ⟨q, hq, heq⟩
  · omega
  · obtain ⟨r, hr, hrlo, hrhi⟩ := exists_of_mem_spans hq
    have := (mem_located_bounds ((hkeep r).mpr ⟨hr, by omega⟩)).2
    omega

/-- An iterator yields the records below the watermark it was created with, and no
error, while the other threads do whatever they do. -/
theorem Inv.iterates {s : Sys} (h : Inv s) {schedule : List (List Action)}
    (hfits : (s.actAll schedule.flatten).reserved < 2 ^ 64) :
    (s.wal.iter.collect (s.beside schedule)).1 =
      .ok ((s.recordsBelow s.wal.commit.committed).map .ok) := by
  obtain ⟨qs, hfilter, hend, hintact⟩ := h.committed_records
  have hres := Nat.lt_of_le_of_lt (reserved_le_actAll s schedule.flatten) hfits
  have hfrom : Live.From s (s.beside schedule).store := ⟨h, .refl s, hfits⟩
  obtain ⟨l, hrun, -⟩ := Wal.Iter.collect_intact (Live.serves h hres) h.max_lt s.wal.iter hintact
    rfl hend hfrom
  have hbelow : s.recordsBelow s.wal.commit.committed = Wal.recordsFrom s.wal.head qs := by
    unfold recordsBelow
    rw [hfilter]
    rfl
  rw [hrun, hbelow]
  rfl

end Sys

/-! ## The events of a run -/

namespace Traced

/-- What the events say about the log. -/
structure Sound (wal : Wal HeadStore) (u : Traced) : Prop extends Sys.Inv u.sys where
  head_eq : u.sys.wal.head = wal.head
  log_eq : u.sys.log = (Sys.opened wal).log ++ u.reservations.map Prod.snd
  placed : u.reservations = located wal.tail (u.reservations.map Prod.snd)
  marked : ∀ r ∈ u.reservations, u.sys.status r.1 = .written → .returned r.1 true ∈ u.events
  settled : ∀ a ok, .returned a ok ∈ u.events → a < u.sys.wal.tail
  ordered : u.events.Pairwise Event.Ordered

theorem opened_sound {config : WalConfig} {store : HeadStore} {wal : Wal HeadStore}
    (hopen : Wal.withStoreAndConfig config store = (.ok wal, wal.store)) :
    Sound wal (opened wal) where
  toInv := Sys.opened_inv hopen
  head_eq := rfl
  log_eq := (List.append_nil _).symm
  placed := rfl
  marked _ hr := absurd hr List.not_mem_nil
  settled _ _ h := absurd h List.not_mem_nil
  ordered := List.Pairwise.nil

/-- The tail is where the reservations end. -/
theorem Sound.tail_eq_reservations {wal : Wal HeadStore} {u : Traced} (h : Sound wal u)
    (hwal : wal.tail = wal.head + (frames (Sys.opened wal).log).length) :
    u.sys.wal.tail = wal.tail + (frames (u.reservations.map Prod.snd)).length := by
  rw [h.tail_eq, h.head_eq, h.log_eq, frames_append, List.length_append, hwal]
  omega

/-- A reservation starts below the tail. -/
theorem Sound.reservation_lt {wal : Wal HeadStore} {u : Traced} (h : Sound wal u)
    (hwal : wal.tail = wal.head + (frames (Sys.opened wal).log).length) {r : Nat × List UInt8}
    (hr : r ∈ u.reservations) : r.1 < u.sys.wal.tail := by
  have htail := h.tail_eq_reservations hwal
  rw [h.placed] at hr
  have hb := (mem_located_bounds hr).2
  have hpos := framedLen_pos r.2.length
  omega

theorem reservations_append (s : Sys) (es es' : List Event) :
    (Traced.mk s (es ++ es')).reservations =
      (Traced.mk s es).reservations ++ es'.filterMap Event.reservation := List.filterMap_append

/-- An append reserves the range at the tail. -/
theorem Sound.reserve {wal : Wal HeadStore} {u : Traced} (h : Sound wal u)
    (hwal : wal.tail = wal.head + (frames (Sys.opened wal).log).length) {t : Nat}
    {record : List UInt8} {ts : Bool} (hinv : Sys.Inv (u.sys.reserve t record ts)) :
    Sound wal { sys := u.sys.reserve t record ts
                events := u.events ++ [.called u.sys.wal.tail record] } := by
  have hold : ∀ r ∈ u.reservations, r.1 ≠ u.sys.wal.tail := fun r hr =>
    Nat.ne_of_lt (h.reservation_lt hwal hr)
  have hreservations : (Traced.mk (u.sys.reserve t record ts)
      (u.events ++ [.called u.sys.wal.tail record])).reservations =
        u.reservations ++ [(u.sys.wal.tail, record)] := reservations_append _ _ _
  have hgrows : u.sys.wal.tail ≤ (u.sys.reserve t record ts).wal.tail := by
    rw [← hinv.reserved_eq, ← h.reserved_eq]
    exact Nat.le_add_right _ _
  refine { toInv := hinv, head_eq := h.head_eq, log_eq := ?_, placed := ?_, marked := ?_,
           settled := ?_, ordered := ?_ }
  · rw [hreservations, List.map_append, ← List.append_assoc, ← h.log_eq]
    rfl
  · rw [hreservations, List.map_append, located_append, ← h.placed,
      ← h.tail_eq_reservations hwal]
    rfl
  · intro r hr hw
    rw [hreservations] at hr
    rcases List.mem_append.mp hr with hr | hr
    · have hw' : u.sys.status r.1 = .written :=
        (Commit.setStatus_ne _ _ (hold r hr)).symm.trans hw
      exact List.mem_append_left _ (h.marked r hr hw')
    · rw [List.mem_singleton.mp hr] at hw
      have hfl : Commit.Status.inflight = .written := (Commit.setStatus_self _ _ _).symm.trans hw
      cases hfl
  · intro a ok hmem
    rcases List.mem_append.mp hmem with hmem | hmem
    · exact Nat.lt_of_lt_of_le (h.settled a ok hmem) hgrows
    · cases List.mem_singleton.mp hmem
  · refine List.pairwise_append.mpr ⟨h.ordered, List.pairwise_singleton _ _, ?_⟩
    intro e he e' he'
    rw [List.mem_singleton.mp he']
    cases e with
    | called lsn record => trivial
    | returned a ok => exact h.settled a ok he

/-- An append settles its range and returns. -/
theorem Sound.settle {wal : Wal HeadStore} {u : Traced} (h : Sound wal u) {s' : Sys}
    {t start : Nat} {ok : Bool} (hinv : Sys.Inv s') (hhead : s'.wal.head = wal.head)
    (howns : (u.sys.threads t).owns = some start) (hlog : s'.log = u.sys.log)
    (htail : s'.wal.tail = u.sys.wal.tail)
    (hstatus : s'.status =
      Commit.setStatus u.sys.status start (if ok then .written else .failed)) :
    Sound wal { sys := s', events := u.events ++ [.returned start ok] } := by
  have hreservations : (Traced.mk s' (u.events ++ [.returned start ok])).reservations =
      u.reservations := (reservations_append s' u.events [.returned start ok]).trans
        (List.append_nil _)
  refine { toInv := hinv, head_eq := hhead, log_eq := ?_, placed := ?_, marked := ?_,
           settled := ?_, ordered := ?_ }
  · rw [hreservations, hlog, h.log_eq]
  · rw [hreservations]
    exact h.placed
  · intro r hr hw
    rw [hreservations] at hr
    rw [hstatus] at hw
    by_cases heq : r.1 = start
    · rw [heq, Commit.setStatus_self] at hw
      cases ok with
      | true =>
          rw [heq]
          exact List.mem_append_right _ List.mem_cons_self
      | false => cases hw
    · rw [Commit.setStatus_ne _ _ heq] at hw
      exact List.mem_append_left _ (h.marked r hr hw)
  · intro a ok' hmem
    rw [htail]
    rcases List.mem_append.mp hmem with hmem | hmem
    · exact h.settled a ok' hmem
    · obtain ⟨-, p, hp⟩ := h.toInv.owned_inflight howns
      have hb := h.toInv.record_bounds hp
      have hpos := framedLen_pos p.length
      cases List.mem_singleton.mp hmem
      dsimp only at hb
      omega
  · refine List.pairwise_append.mpr ⟨h.ordered, List.pairwise_singleton _ _, ?_⟩
    intro e he e' he'
    rw [List.mem_singleton.mp he']
    cases e <;> trivial

theorem Sound.step {wal : Wal HeadStore} {u u' : Traced} (h : Sound wal u)
    (hwal : wal.tail = wal.head + (frames (Sys.opened wal).log).length) {a : Action}
    (hstep : u.step a = some u') (hres : u'.sys.reserved < 2 ^ 64) : Sound wal u' := by
  obtain ⟨s', hs, rfl⟩ := Option.map_eq_some_iff.mp hstep
  have hinv := h.toInv.step hs hres
  have hhead := (Sys.step_sameLog hs).head_eq.trans h.head_eq
  have hmove := Sys.step_moves hs
  generalize u.sys.observe a = es at hmove
  cases hmove with
  | reserve t record ts fits eq =>
      subst eq
      exact h.reserve hwal hinv
  | settle t start ok owns log_eq tail_eq status_eq =>
      exact h.settle hinv hhead owns log_eq tail_eq status_eq
  | quiet same =>
      have hreservations : (Traced.mk s' (u.events ++ [])).reservations = u.reservations :=
        (reservations_append s' u.events []).trans (List.append_nil _)
      refine { toInv := hinv, head_eq := hhead, log_eq := ?_, placed := ?_, marked := ?_,
               settled := ?_, ordered := ?_ }
      · rw [hreservations, same.log_eq, h.log_eq]
      · rw [hreservations]
        exact h.placed
      · rw [hreservations, same.status_eq]
        intro r hr hw
        exact List.mem_append_left _ (h.marked r hr hw)
      · rw [List.append_nil, same.tail_eq]
        exact h.settled
      · rw [List.append_nil]
        exact h.ordered

/-- The invariant along a run whose offsets fit. -/
theorem run_sound {wal : Wal HeadStore} {u : Traced} {acts : List Action}
    (h : Sound wal (opened wal)) (hrun : run step (opened wal) acts = some u)
    (hres : u.sys.reserved < 2 ^ 64) : Sound wal u := by
  have hkeep : ∀ u a u', (u.sys.reserved < 2 ^ 64 → Sound wal u) → u.step a = some u' →
      u'.sys.reserved < 2 ^ 64 → Sound wal u' := by
    intro u a u' hsound hstep hlt
    obtain ⟨s', hs, heq⟩ := Option.map_eq_some_iff.mp hstep
    have hle : u.sys.reserved ≤ u'.sys.reserved := by
      rw [← heq]
      exact (Sys.step_sameLog hs).reserved_ge
    exact (hsound (Nat.lt_of_le_of_lt hle hlt)).step h.tail_eq hstep hlt
  exact run_invariant hkeep (fun _ => h) hrun hres

theorem Sound.recordsBelow_eq {wal : Wal HeadStore} {u : Traced} (h : Sound wal u)
    (hwal : wal.tail = wal.head + (frames (Sys.opened wal).log).length) (limit : Nat) :
    u.sys.recordsBelow limit = recordsBelow wal u limit := by
  unfold Sys.recordsBelow recordsBelow Sys.records
  rw [h.head_eq, h.log_eq, located_append, ← hwal, ← h.placed]

end Traced

/-- Concurrent appends tile the log and an iterator sees a snapshot of it.  In every
run of any threads over an opened log, with any writes failing:

* the recovered records tile the log up to where the open left the tail, the ranges
  that appends reserve tile it from there, and no two of them meet;
* an append that returns before another reserves has the smaller LSN;
* the watermark is not above the start of a range that has not been written;
* an iterator created now, and driven to its end while the other threads do
  anything at all, yields exactly the records below the watermark, in order. -/
theorem concurrent_appends_snapshot (config : WalConfig) (store : HeadStore) (wal : Wal HeadStore)
    (hopen : Wal.withStoreAndConfig config store = (.ok wal, wal.store)) (acts : List Action)
    (u : Traced) (hrun : run Traced.step (Traced.opened wal) acts = some u)
    (hreserved : u.sys.reserved < 2 ^ 64) :
    Tiles wal.head (spans wal.head (Sys.opened wal).log) wal.tail ∧
    Tiles wal.tail (u.reservations.map fun r => ⟨r.1, r.1 + framedLen r.2.length⟩)
      u.sys.wal.tail ∧
    u.reservations.Pairwise (fun r q => r.1 + framedLen r.2.length ≤ q.1) ∧
    (∀ before after a ok b record, u.events = before ++ after → .returned a ok ∈ before →
      .called b record ∈ after → a < b) ∧
    (∀ r ∈ u.reservations, .returned r.1 true ∉ u.events → u.sys.wal.commit.committed ≤ r.1) ∧
    ∀ schedule, (u.sys.actAll schedule.flatten).reserved < 2 ^ 64 →
      (u.sys.wal.iter.collect (u.sys.beside schedule)).1 =
        .ok ((u.recordsBelow wal u.sys.wal.commit.committed).map .ok) := by
  have hstart := Traced.opened_sound hopen
  have hwal : wal.tail = wal.head + (frames (Sys.opened wal).log).length := hstart.tail_eq
  have h := Traced.run_sound hstart hrun hreserved
  refine ⟨?_, ?_, ?_, ?_, ?_, ?_⟩
  · rw [hwal]
    exact spans_tiles _ _
  · rw [h.tail_eq_reservations hwal, h.placed, located_map_snd]
    exact spans_tiles _ _
  · rw [h.placed]
    exact located_pairwise _ _
  · intro before after a ok b record hsplit ha hb
    have hordered := h.ordered
    rw [hsplit] at hordered
    exact (List.pairwise_append.mp hordered).2.2 _ ha _ hb
  · intro r hr hnot
    by_contra hlt
    -- A range that starts below the watermark is written, so its append has returned.
    have hmem : r ∈ u.sys.records := by
      unfold Sys.records
      rw [h.head_eq, h.log_eq, located_append, ← hwal, ← h.placed]
      exact List.mem_append_right _ hr
    exact hnot (h.marked r hr (h.tracks.below _ (mem_spans hmem) (Nat.not_le.mp hlt)))
  · intro schedule hfits
    rw [h.toInv.iterates hfits, h.recordsBelow_eq hwal]

/-- Three appends, of which the second fails half way, and a fourth that has begun.
An iterator that reads while the fourth is written yields the first record only. -/
theorem concurrent_appends_snapshot_past_failure :
    ∃ u, run Traced.step (Traced.opened emptyWal)
        [.append 0 [1] false, .append 1 [2] false, .append 2 [3] false, .land 0 9, .wrote 0 true,
          .land 1 3, .wrote 1 false, .mark 1, .mark 0, .land 2 9, .wrote 2 true, .mark 2,
          .append 3 [4] false] = some u ∧
      u.reservations = [(0, [1]), (9, [2]), (18, [3]), (27, [4])] ∧
      u.sys.wal.commit.committed = 9 ∧
      (u.sys.wal.iter.collect (u.sys.beside
        [[.land 3 2], [.land 3 7, .wrote 3 true], [.mark 3, .append 0 [5] false]])).1 =
          .ok [.ok ⟨0, [1]⟩] := by
  have heval : (run Traced.step (Traced.opened emptyWal)
      [.append 0 [1] false, .append 1 [2] false, .append 2 [3] false, .land 0 9, .wrote 0 true,
        .land 1 3, .wrote 1 false, .mark 1, .mark 0, .land 2 9, .wrote 2 true, .mark 2,
        .append 3 [4] false]).map (fun u => (u.reservations, u.sys.wal.commit.committed,
          u.sys.reserved, u.recordsBelow emptyWal 9, (u.sys.actAll [.land 3 2, .land 3 7,
            .wrote 3 true, .mark 3, .append 0 [5] false]).reserved)) =
      some ([(0, [1]), (9, [2]), (18, [3]), (27, [4])], 9, 36, [⟨0, [1]⟩], 45) := by
    decide +kernel
  obtain ⟨u, hrun, hu⟩ := Option.map_eq_some_iff.mp heval
  simp only [Prod.mk.injEq] at hu
  obtain ⟨hreservations, hcommitted, hreserved, hrecords, hfinal⟩ := hu
  refine ⟨u, hrun, hreservations, hcommitted, ?_⟩
  have hres : u.sys.reserved < 2 ^ 64 := by
    rw [hreserved]
    decide
  obtain ⟨-, -, -, -, -, hiter⟩ := concurrent_appends_snapshot WalConfig.new _ emptyWal open_emptyWal
    _ u hrun hres
  rw [hiter _ (by exact hfinal.trans_lt (by decide)), hcommitted, hrecords]
  rfl

end WalDb
