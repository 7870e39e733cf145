/-
What holds in every state the threads can reach.

`Inv` ties the commit state, the ghost ranges, the threads' positions and the store
together.  Two of its fields carry the durability argument.  Below `durable`,
stable storage holds what the log holds; and a thread inside a flush covers
everything below the `committed` it read before the flush began.  Bytes that a
failed flush has dropped can only exist once no further flush can start.
-/
import WalDb.System

namespace WalDb

open Lib Record

/-- The ranges of consecutive records from `off` on. -/
def spans (off : Nat) (ps : List (List UInt8)) : List Span :=
  (located off ps).map fun r => { lo := r.1, hi := r.1 + framedLen r.2.length }

theorem spans_tiles (off : Nat) (ps : List (List UInt8)) :
    Tiles off (spans off ps) (off + (frames ps).length) := by
  induction ps generalizing off with
  | nil => exact rfl
  | cons p ps ih =>
      refine ⟨rfl, ?_, ?_⟩
      · show off < off + framedLen p.length
        unfold framedLen headerLen
        omega
      · rw [frames_cons, List.length_append, frame_length, ← Nat.add_assoc]
        exact ih (off + framedLen p.length)

theorem mem_spans {off : Nat} {ps : List (List UInt8)} {r : Nat × List UInt8}
    (h : r ∈ located off ps) :
    ({ lo := r.1, hi := r.1 + framedLen r.2.length } : Span) ∈ spans off ps :=
  List.mem_map_of_mem h

theorem exists_of_mem_spans {off : Nat} {ps : List (List UInt8)} {q : Span}
    (h : q ∈ spans off ps) :
    ∃ r ∈ located off ps, q.lo = r.1 ∧ q.hi = r.1 + framedLen r.2.length := by
  obtain ⟨r, hr, rfl⟩ := List.mem_map.mp h
  exact ⟨r, hr, rfl, rfl⟩

theorem spans_append (off : Nat) (ps : List (List UInt8)) (p : List UInt8) :
    spans off (ps ++ [p]) = spans off ps ++
      [{ lo := off + (frames ps).length, hi := off + (frames ps).length + framedLen p.length }] := by
  rw [spans, located_append, List.map_append]
  rfl

/-- Records of one log that start together are the same record. -/
theorem located_unique {off : Nat} {ps : List (List UInt8)} {r r' : Nat × List UInt8}
    (h : r ∈ located off ps) (h' : r' ∈ located off ps) (heq : r.1 = r'.1) : r = r' := by
  induction ps generalizing off with
  | nil => cases h
  | cons p ps ih =>
      have hpos : 0 < framedLen p.length := framedLen_pos _
      rcases List.mem_cons.mp h with h1 | h1 <;> rcases List.mem_cons.mp h' with h2 | h2
      · rw [h1, h2]
      · have := (mem_located_bounds h2).1
        rw [h1] at heq
        dsimp only at heq
        omega
      · have := (mem_located_bounds h1).1
        rw [h2] at heq
        dsimp only at heq
        omega
      · exact ih h1 h2

namespace Disk

/-- The store holds the record's frame, written by a call that returned. -/
def Holds (d : Disk) (r : Nat × List UInt8) : Prop :=
  (Image.ofList d.data).read r.1 (framedLen r.2.length) = some (frame r.2) ∧
    ∀ o, r.1 ≤ o → o < r.1 + framedLen r.2.length → d.returned o = true

/-- A byte of a record that is held. -/
theorem Holds.byte {d : Disk} {r : Nat × List UInt8} (h : d.Holds r) {o : Nat} (hlo : r.1 ≤ o)
    (hhi : o < r.1 + framedLen r.2.length) : d.returned o = true ∧ o < d.data.length := by
  obtain ⟨hread, hret⟩ := h
  refine ⟨hret o hlo hhi, ?_⟩
  by_contra hge
  have hnone : (Image.ofList d.data) o = none := List.getElem?_eq_none (by omega)
  rw [Image.read_eq_none_iff.mpr ⟨o - r.1, by omega,
    by rw [Nat.add_sub_cancel' (by omega)]; exact hnone⟩] at hread
  cases hread

/-- Stable storage holds the first `n` bytes. -/
def StableBelow (d : Disk) (n : Nat) : Prop :=
  n ≤ d.data.length ∧ ∀ o, o < n → d.stable o = d.data[o]?

end Disk

namespace Pc

/-- The start of the range the thread has reserved and not settled. -/
def owns : Pc → Option Nat
  | .overflowed start => some start
  | .writing start _ _ _ => some start
  | .marking start _ _ _ => some start
  | _ => none

/-- Whether the thread is the flush leader. -/
def leads : Pc → Bool
  | .flushing _ _ _ => true
  | .relocking _ _ _ => true
  | _ => false

end Pc

namespace Sys

/-- The records reserved so far, with their offsets. -/
def records (s : Sys) : List (Nat × List UInt8) := located s.wal.head s.log

def ranges (s : Sys) : List Span := spans s.wal.head s.log

/-- What a thread's position says about the rest. -/
def ThreadInv (s : Sys) : Pc → Prop
  | .overflowed _ => False
  | .writing start record done _ =>
      (start, record) ∈ s.records ∧ s.status start = .inflight ∧
        done ≤ framedLen record.length ∧
        (Image.ofList s.wal.store.data).read start done = some ((frame record).take done)
  | .marking start record ok _ =>
      (start, record) ∈ s.records ∧ s.status start = .inflight ∧
        (ok = true → s.wal.store.Holds (start, record))
  | .flushing _ flushTo snap =>
      s.wal.commit.durable ≤ flushTo ∧ flushTo ≤ s.wal.commit.committed ∧
        flushTo ≤ s.wal.store.data.length ∧
        (∀ o, o < flushTo → snap o = s.wal.store.data[o]?) ∧ ∀ o, s.wal.store.lost o = false
  | .relocking _ flushTo ok =>
      flushTo ≤ s.wal.commit.committed ∧ (ok = true → s.wal.store.StableBelow flushTo)
  | _ => True

/-- The invariant of the threads, the log and the store. -/
structure Inv (s : Sys) : Prop where
  max_lt : s.wal.maxRecordSize < 2 ^ 32
  fits : ∀ p ∈ s.log, p.length ≤ s.wal.maxRecordSize
  tail_eq : s.wal.tail = s.wal.head + (frames s.log).length
  reserved_eq : s.reserved = s.wal.tail
  head_le : s.wal.head ≤ s.wal.store.data.length
  size_le : s.wal.store.data.length ≤ s.wal.tail
  tracks : Commit.Tracks s.wal.head s.ranges s.status s.wal.commit
  /-- What lay below the head was there when the log was opened. -/
  returned_head : ∀ o, o < s.wal.head → s.wal.store.returned o = true
  holds : ∀ r ∈ s.records, s.status r.1 = .written → s.wal.store.Holds r
  thread : ∀ t, ThreadInv s (s.threads t)
  owner : ∀ t u a, (s.threads t).owns = some a → (s.threads u).owns = some a → t = u
  owned : ∀ r ∈ s.records, s.status r.1 = .inflight → ∃ t, (s.threads t).owns = some r.1
  leader : ∀ t u, (s.threads t).leads = true → (s.threads u).leads = true → t = u
  syncing : ∀ t, (s.threads t).leads = true → s.wal.commit.syncing = true
  stable : s.wal.store.StableBelow s.wal.commit.durable
  lost : ∀ o, s.wal.store.lost o = true → s.wal.commit.flushFailed = true ∨
    ∃ t target flushTo, s.threads t = .relocking target flushTo false
  acks : ∀ T ∈ s.acks, T ≤ s.wal.commit.durable

theorem ranges_tiles {s : Sys} (h : Inv s) : Tiles s.wal.head s.ranges s.wal.tail := by
  rw [h.tail_eq]
  exact spans_tiles _ _

/-- Where every record that starts below `n` is written, each byte below `n` is there, from a
write that returned. -/
theorem Inv.bytes_below {s : Sys} (h : Inv s) {n : Nat} (hn : n ≤ s.wal.tail)
    (hw : ∀ r ∈ s.records, r.1 < n → s.status r.1 = .written) {o : Nat} (ho : o < n) :
    s.wal.store.returned o = true ∧ o < s.wal.store.data.length := by
  by_cases hhead : o < s.wal.head
  · exact ⟨h.returned_head o hhead, Nat.lt_of_lt_of_le hhead h.head_le⟩
  · obtain ⟨q, hq, hlo, hhi⟩ :=
      (ranges_tiles h).exists_mem (Nat.not_lt.mp hhead) (Nat.lt_of_lt_of_le ho hn)
    obtain ⟨r, hr, hlo', hhi'⟩ := exists_of_mem_spans hq
    exact (h.holds r hr (hw r hr (by omega))).byte (by omega) (by omega)

theorem Inv.le_length {s : Sys} (h : Inv s) {n : Nat} (hn : n ≤ s.wal.tail)
    (hw : ∀ r ∈ s.records, r.1 < n → s.status r.1 = .written) :
    n ≤ s.wal.store.data.length := by
  by_contra hlt
  have := (h.bytes_below hn hw (o := s.wal.store.data.length) (by omega)).2
  omega

theorem Inv.written_below {s : Sys} (h : Inv s) :
    ∀ r ∈ s.records, r.1 < s.wal.commit.committed → s.status r.1 = .written :=
  fun _ hr hlt => h.tracks.below _ (mem_spans hr) hlt

theorem Inv.below_committed {s : Sys} (h : Inv s) {o : Nat} (ho : o < s.wal.commit.committed) :
    s.wal.store.returned o = true ∧ o < s.wal.store.data.length :=
  h.bytes_below (h.tracks.committed_le_end (ranges_tiles h)) h.written_below ho

theorem Inv.committed_le_length {s : Sys} (h : Inv s) :
    s.wal.commit.committed ≤ s.wal.store.data.length :=
  h.le_length (h.tracks.committed_le_end (ranges_tiles h)) h.written_below

/-! ## Threads that do not move -/

/-- A thread that the step of another leaves alone, or wakes. -/
def Follows (a b : Pc) : Prop := b = a ∨ ∃ target, a = .waiting target ∧ b = .woken target

theorem Follows.owns {a b : Pc} (h : Follows a b) : b.owns = a.owns := by
  rcases h with rfl | ⟨target, rfl, rfl⟩ <;> rfl

theorem Follows.leads {a b : Pc} (h : Follows a b) : b.leads = a.leads := by
  rcases h with rfl | ⟨target, rfl, rfl⟩ <;> rfl

theorem Follows.threadInv {s : Sys} {a b : Pc} (h : Follows a b) (ha : ThreadInv s a) :
    ThreadInv s b := by
  rcases h with rfl | ⟨target, rfl, rfl⟩
  · exact ha
  · exact trivial

theorem notifyAll_follows (threads : Nat → Pc) (u : Nat) :
    Follows (threads u) (notifyAll threads u) := by
  unfold notifyAll
  cases h : threads u with
  | waiting target => exact Or.inr ⟨target, rfl, rfl⟩
  | _ => exact Or.inl rfl

@[simp] theorem setPc_self (threads : Nat → Pc) (t : Nat) (pc : Pc) : setPc threads t pc t = pc :=
  if_pos rfl

theorem setPc_ne (threads : Nat → Pc) {t u : Nat} (pc : Pc) (h : u ≠ t) :
    setPc threads t pc u = threads u := if_neg h

theorem setPc_setPc (threads : Nat → Pc) (t : Nat) (pc pc' : Pc) :
    setPc (setPc threads t pc) t pc' = setPc threads t pc' := by
  funext u
  unfold setPc
  split <;> rfl

theorem setPc_follows (threads : Nat → Pc) {t : Nat} (pc : Pc) (u : Nat) (h : u ≠ t) :
    Follows (threads u) (setPc threads t pc u) := Or.inl (setPc_ne threads pc h)

/-- A thread that moves without giving up or taking anything leaves the roles as they are. -/
theorem setPc_roles (threads : Nat → Pc) {t : Nat} {pc : Pc} (hown : pc.owns = (threads t).owns)
    (hlead : pc.leads = (threads t).leads) (u : Nat) :
    (setPc threads t pc u).owns = (threads u).owns ∧
      (setPc threads t pc u).leads = (threads u).leads := by
  by_cases hu : u = t
  · rw [hu, setPc_self]
    exact ⟨hown, hlead⟩
  · rw [setPc_ne _ _ hu]
    exact ⟨rfl, rfl⟩

/-- If the thread that moves does not lead, whoever leads led before. -/
theorem leads_of_follows {threads threads' : Nat → Pc} {t : Nat}
    (hothers : ∀ u, u ≠ t → Follows (threads u) (threads' u)) (hlead : (threads' t).leads = false)
    {u : Nat} (hu : (threads' u).leads = true) : (threads u).leads = true := by
  by_cases hut : u = t
  · rw [hut, hlead] at hu
    cases hu
  · rw [← (hothers u hut).leads, hu]

/-- What a thread's position says depends on the record it owns and on the bytes of the store,
and for the flush leader on the whole store and on the watermarks. -/
theorem ThreadInv.mono {s s' : Sys} {pc : Pc} (h : ThreadInv s pc)
    (hown : ∀ r ∈ s.records, pc.owns = some r.1 → r ∈ s'.records ∧ s'.status r.1 = s.status r.1)
    (hdata : s'.wal.store.data = s.wal.store.data)
    (hret : s'.wal.store.returned = s.wal.store.returned)
    (hlead : pc.leads = true → s'.wal.store = s.wal.store ∧
      s.wal.commit.committed ≤ s'.wal.commit.committed ∧
      s'.wal.commit.durable = s.wal.commit.durable) : ThreadInv s' pc := by
  cases pc <;> simp only [ThreadInv] at h ⊢
  case writing =>
    obtain ⟨hr, hst⟩ := hown _ h.1 rfl
    rw [hst, hdata]
    exact ⟨hr, h.2⟩
  case marking =>
    obtain ⟨hr, hst⟩ := hown _ h.1 rfl
    rw [hst, Disk.Holds, hdata, hret]
    exact ⟨hr, h.2⟩
  case flushing =>
    obtain ⟨hstore, hcom, hdur⟩ := hlead rfl
    rw [hstore, hdur]
    exact ⟨h.1, Nat.le_trans h.2.1 hcom, h.2.2⟩
  case relocking =>
    obtain ⟨hstore, hcom, -⟩ := hlead rfl
    rw [hstore]
    exact ⟨Nat.le_trans h.1 hcom, h.2⟩

theorem ThreadInv.of_eq {s s' : Sys} {pc : Pc} (h : ThreadInv s pc)
    (hrec : s'.records = s.records) (hst : s'.status = s.status)
    (hstore : s'.wal.store = s.wal.store)
    (hcom : pc.leads = true → s'.wal.commit.committed = s.wal.commit.committed ∧
      s'.wal.commit.durable = s.wal.commit.durable) : ThreadInv s' pc :=
  h.mono (fun r hr _ => ⟨by rwa [hrec], by rw [hst]⟩) (by rw [hstore]) (by rw [hstore])
    fun hl => ⟨hstore, Nat.le_of_eq (hcom hl).1.symm, (hcom hl).2⟩

theorem Inv.leads_alone {s : Sys} (h : Inv s) {t u : Nat} (ht : (s.threads t).leads = true)
    (hu : u ≠ t) : (s.threads u).leads = false :=
  Bool.eq_false_of_not_eq_true fun hl => hu (h.leader u t hl ht)

/-- A failed flush that is still to be reported stays in its leader's hands when another
thread moves. -/
theorem Inv.lost_follows {s : Sys} (h : Inv s) {t : Nat} {threads : Nat → Pc}
    (hnl : (s.threads t).leads = false)
    (hothers : ∀ u, u ≠ t → Follows (s.threads u) (threads u)) {o : Nat}
    (ho : s.wal.store.lost o = true) : s.wal.commit.flushFailed = true ∨
      ∃ u target flushTo, threads u = .relocking target flushTo false := by
  rcases h.lost o ho with hf | ⟨u, T, F, hu⟩
  · exact Or.inl hf
  · have hut : u ≠ t := fun hut => by
      rw [← hut, hu] at hnl
      cases hnl
    refine Or.inr ⟨u, T, F, ?_⟩
    rcases hothers u hut with heq | ⟨target, hwait, -⟩
    · rw [heq, hu]
    · rw [hu] at hwait
      cases hwait

/-! ## Steps under the lock that settle no write -/

/-- A step of thread `t` that moves no range: it may change the flags under the
lock, raise the durable watermark, and acknowledge. -/
theorem Inv.of_sync {s : Sys} (h : Inv s) {t : Nat} {st : Commit.State} {threads : Nat → Pc}
    {acks : List Nat}
    (hc : st.committed = s.wal.commit.committed) (hp : st.pending = s.wal.commit.pending)
    (hpo : st.poison = s.wal.commit.poison) (hd : s.wal.store.StableBelow st.durable)
    (hdc : st.durable ≤ s.wal.commit.committed)
    (hdur : st.durable = s.wal.commit.durable ∨ ∀ u, u ≠ t → (s.threads u).leads = false)
    (hold : (s.threads t).owns = none)
    (hothers : ∀ u, u ≠ t → Follows (s.threads u) (threads u))
    (hown : (threads t).owns = none)
    (hthread : ThreadInv { s with wal := { s.wal with commit := st } } (threads t))
    (hlead : (threads t).leads = true → ∀ u, u ≠ t → (s.threads u).leads = false)
    (hsync : ∀ u, (threads u).leads = true → st.syncing = true)
    (hlost : ∀ o, s.wal.store.lost o = true → st.flushFailed = true ∨
      ∃ u target flushTo, threads u = .relocking target flushTo false)
    (hacks : ∀ T ∈ acks, T ≤ st.durable) :
    Inv { s with wal := { s.wal with commit := st }, threads := threads, acks := acks } where
  max_lt := h.max_lt
  fits := h.fits
  tail_eq := h.tail_eq
  reserved_eq := h.reserved_eq
  head_le := h.head_le
  size_le := h.size_le
  tracks := h.tracks.of_eq hc hp hpo hdc
  returned_head := h.returned_head
  holds := h.holds
  thread u := by
    by_cases hu : u = t
    · subst hu
      exact hthread.of_eq rfl rfl rfl fun _ => ⟨rfl, rfl⟩
    · refine ((hothers u hu).threadInv (h.thread u)).of_eq rfl rfl rfl fun hl => ⟨hc, ?_⟩
      rcases hdur with hdur | hnone
      · exact hdur
      · rw [(hothers u hu).leads, hnone u hu] at hl
        cases hl
  owner u v a hu hv := by
    by_cases hut : u = t
    · subst hut
      rw [hown] at hu
      cases hu
    · by_cases hvt : v = t
      · subst hvt
        rw [hown] at hv
        cases hv
      · rw [(hothers u hut).owns] at hu
        rw [(hothers v hvt).owns] at hv
        exact h.owner u v a hu hv
  owned r hr hfl := by
    obtain ⟨u, hu⟩ := h.owned r hr hfl
    have hut : u ≠ t := fun he => by
      rw [he, hold] at hu
      cases hu
    exact ⟨u, by rw [(hothers u hut).owns, hu]⟩
  leader u v hu hv := by
    by_cases hut : u = t <;> by_cases hvt : v = t
    · rw [hut, hvt]
    · rw [(hothers v hvt).leads, hlead (hut ▸ hu) v hvt] at hv
      cases hv
    · rw [(hothers u hut).leads, hlead (hvt ▸ hv) u hut] at hu
      cases hu
    · rw [(hothers u hut).leads] at hu
      rw [(hothers v hvt).leads] at hv
      exact h.leader u v hu hv
  syncing := hsync
  stable := hd
  lost := hlost
  acks := hacks

/-- A round of `sync_to` by a thread that is about to make one. -/
theorem Inv.round {s : Sys} (h : Inv s) {t target : Nat} (ht : s.threads t = .entering target) :
    Inv (s.round t target) := by
  have hold : (s.threads t).owns = none := by rw [ht]; rfl
  have hnl : (s.threads t).leads = false := by rw [ht]; rfl
  have hsync : ∀ pc : Pc, pc.leads = false → ∀ u, (setPc s.threads t pc u).leads = true →
      s.wal.commit.syncing = true := fun pc hpc u hu =>
    h.syncing u (leads_of_follows (setPc_follows _ _) (by rw [setPc_self, hpc]) hu)
  have hlost : ∀ pc : Pc, ∀ o, s.wal.store.lost o = true → s.wal.commit.flushFailed = true ∨
      ∃ u target flushTo, setPc s.threads t pc u = .relocking target flushTo false :=
    fun pc o ho => h.lost_follows hnl (setPc_follows _ _) ho
  unfold Sys.round
  rcases Commit.syncCheck_cases s.wal.commit target with ⟨e, hr⟩ | ⟨hr, hle⟩ | ⟨hr, hns, hnf, hle⟩ | hr
  · rw [hr]
    exact h.of_sync rfl rfl rfl h.stable h.tracks.durable_le (Or.inl rfl) hold (setPc_follows _ _)
      (by simp [Pc.owns]) (by simp [ThreadInv]) (by simp [Pc.leads]) (hsync .idle rfl)
      (hlost .idle) h.acks
  · rw [hr]
    refine h.of_sync rfl rfl rfl h.stable h.tracks.durable_le (Or.inl rfl) hold (setPc_follows _ _)
      (by simp [Pc.owns]) (by simp [ThreadInv]) (by simp [Pc.leads]) (hsync .idle rfl)
      (hlost .idle) ?_
    intro T hT
    rcases List.mem_cons.mp hT with rfl | hT
    · exact hle
    · exact h.acks T hT
  · -- The new leader: nobody was flushing, and no flush has failed.
    rw [hr]
    have hnone : ∀ u, (s.threads u).leads = false := by
      intro u
      cases hu : (s.threads u).leads
      · rfl
      · rw [h.syncing u hu] at hns
        cases hns
    have hnolost : ∀ o, s.wal.store.lost o = false := by
      intro o
      cases ho : s.wal.store.lost o
      · rfl
      · rcases h.lost o ho with hf | ⟨u, T, F, hu⟩
        · rw [hnf] at hf
          cases hf
        · have := hnone u
          rw [hu] at this
          cases this
    refine h.of_sync rfl rfl rfl h.stable h.tracks.durable_le (Or.inl rfl) hold (setPc_follows _ _)
      (by simp [Pc.owns]) ?_ (fun _ u _ => hnone u) (fun _ _ => rfl) ?_ h.acks
    · rw [setPc_self]
      refine ⟨h.tracks.durable_le, Nat.le_refl _, h.committed_le_length, fun o ho => ?_, hnolost⟩
      show Disk.snapshot s.wal.store o = _
      rw [Disk.snapshot, if_pos (h.below_committed ho).1]
    · intro o ho
      rw [hnolost o] at ho
      cases ho
  · rw [hr]
    exact h.of_sync rfl rfl rfl h.stable h.tracks.durable_le (Or.inl rfl) hold (setPc_follows _ _)
      (by simp [Pc.owns]) (by simp [ThreadInv]) (by simp [Pc.leads]) (hsync (.waiting target) rfl)
      (hlost (.waiting target)) h.acks

/-- A round depends on the other threads' positions only. -/
theorem round_setPc (s : Sys) (t target : Nat) (pc : Pc) :
    ({ s with threads := setPc s.threads t pc } : Sys).round t target = s.round t target := by
  unfold Sys.round withCommit
  dsimp only
  cases (Commit.syncCheck s.wal.commit target).2 with
  | done r =>
      cases r <;> simp only [leave, setPc_setPc]
  | lead flushTo => simp only [leave, setPc_setPc]
  | wait => simp only [leave, setPc_setPc]

/-- A thread with no range and no flush in hand moves, the lock's counter of
waiters changes. -/
theorem Inv.move {s : Sys} (h : Inv s) {t : Nat} (pc : Pc) (waiters : Nat)
    (hold : (s.threads t).owns = none) (hnl : (s.threads t).leads = false)
    (hpo : pc.owns = none) (hpl : pc.leads = false) (hpc : ∀ s', ThreadInv s' pc) :
    Inv { s.withCommit { s.wal.commit with waiters := waiters } with
          threads := setPc s.threads t pc } := by
  have hlead : (setPc s.threads t pc t).leads = false := by rw [setPc_self, hpl]
  exact h.of_sync rfl rfl rfl h.stable h.tracks.durable_le (Or.inl rfl) hold (setPc_follows _ _)
    (by rw [setPc_self, hpo]) (by rw [setPc_self]; exact hpc _)
    (fun hl => by rw [hlead] at hl; cases hl)
    (fun u hu => h.syncing u (leads_of_follows (setPc_follows _ _) hlead hu))
    (fun o ho => h.lost_follows hnl (setPc_follows _ _) ho) h.acks

/-! ## Reserving a range -/

theorem Inv.record_bounds {s : Sys} (h : Inv s) {r : Nat × List UInt8} (hr : r ∈ s.records) :
    s.wal.head ≤ r.1 ∧ r.1 + framedLen r.2.length ≤ s.wal.tail := by
  rw [h.tail_eq]
  exact mem_located_bounds hr

/-- A thread's own range is one of the log's. -/
theorem ThreadInv.owns_lt {s : Sys} (h : Inv s) {pc : Pc} (hpc : ThreadInv s pc) {a : Nat}
    (ha : pc.owns = some a) : a < s.wal.tail := by
  have key : ∀ record, (a, record) ∈ s.records → a < s.wal.tail := by
    intro record hr
    have := (h.record_bounds hr).2
    unfold framedLen headerLen at this
    dsimp only at this
    omega
  cases pc <;> simp only [Pc.owns, Option.some.injEq, reduceCtorEq] at ha
  case overflowed => exact hpc.elim
  case writing => exact key _ (ha ▸ hpc.1)
  case marking => exact key _ (ha ▸ hpc.1)

section Reserve

variable {s : Sys} {t : Nat} {record : List UInt8} {thenSync : Bool}

theorem Inv.reserve_records (h : Inv s) :
    (s.reserve t record thenSync).records = s.records ++ [(s.wal.tail, record)] := by
  show located s.wal.head (s.log ++ [record]) = _
  rw [located_append, ← h.tail_eq]
  rfl

theorem Inv.reserve_ranges (h : Inv s) : (s.reserve t record thenSync).ranges =
    s.ranges ++ [{ lo := s.wal.tail, hi := s.wal.tail + framedLen record.length }] := by
  show spans s.wal.head (s.log ++ [record]) = _
  rw [spans_append, ← h.tail_eq]
  rfl

/-- Ranges reserved before keep their place and their status. -/
theorem Inv.reserve_kept (h : Inv s) {r : Nat × List UInt8} (hr : r ∈ s.records) :
    r ∈ (s.reserve t record thenSync).records ∧
      (s.reserve t record thenSync).status r.1 = s.status r.1 := by
  have hlt : r.1 < s.wal.tail := by
    have := (h.record_bounds hr).2
    unfold framedLen headerLen at this
    omega
  refine ⟨?_, Commit.setStatus_ne _ _ (Nat.ne_of_lt hlt)⟩
  rw [h.reserve_records]
  exact List.mem_append_left _ hr

theorem reserve_status_self (s : Sys) :
    (s.reserve t record thenSync).status s.wal.tail = .inflight := Commit.setStatus_self _ _ _

theorem reserve_threads (hfit : s.wal.tail + framedLen record.length < 2 ^ 64) :
    (s.reserve t record thenSync).threads =
      setPc s.threads t (.writing s.wal.tail record 0 thenSync) := by
  simp only [Sys.reserve, checkedAdd_of_lt hfit]

/-- The new range is the moving thread's, and nobody's before. -/
theorem Inv.reserve_owner (h : Inv s) {u v a : Nat}
    (hu : (setPc s.threads t (.writing s.wal.tail record 0 thenSync) u).owns = some a)
    (hv : (setPc s.threads t (.writing s.wal.tail record 0 thenSync) v).owns = some a) :
    u = v := by
  have hnew : ∀ w, (s.threads w).owns ≠ some s.wal.tail := fun w hw =>
    Nat.lt_irrefl _ (ThreadInv.owns_lt h (h.thread w) hw)
  by_cases hut : u = t <;> by_cases hvt : v = t
  · rw [hut, hvt]
  · rw [hut, setPc_self] at hu
    rw [setPc_ne _ _ hvt] at hv
    cases hu
    exact absurd hv (hnew v)
  · rw [hvt, setPc_self] at hv
    rw [setPc_ne _ _ hut] at hu
    cases hv
    exact absurd hu (hnew u)
  · rw [setPc_ne _ _ hut] at hu
    rw [setPc_ne _ _ hvt] at hv
    exact h.owner u v a hu hv

/-- The reservation of a record that fits. -/
theorem Inv.reserve (h : Inv s) (ht : s.threads t = .idle)
    (hlen : record.length ≤ s.wal.maxRecordSize)
    (hres : s.reserved + framedLen record.length < 2 ^ 64) :
    Inv (s.reserve t record thenSync) := by
  rw [h.reserved_eq] at hres
  have htail : (s.reserve t record thenSync).wal.tail = s.wal.tail + framedLen record.length :=
    Nat.mod_eq_of_lt hres
  have hthreads : (s.reserve t record thenSync).threads = _ := reserve_threads hres
  have hnl : (s.threads t).leads = false := by rw [ht]; rfl
  have hleads : ∀ u, (setPc s.threads t (.writing s.wal.tail record 0 thenSync) u).leads = true →
      (s.threads u).leads = true := fun u hu =>
    leads_of_follows (setPc_follows _ _) (by rw [setPc_self]; rfl) hu
  refine
    { max_lt := h.max_lt, fits := fun p hp => ?_, tail_eq := ?_, reserved_eq := ?_,
      head_le := h.head_le, size_le := ?_, tracks := ?_, returned_head := h.returned_head,
      holds := fun r hr hw => ?_, thread := fun u => ?_,
      owner := fun u v a hu hv => h.reserve_owner (hthreads ▸ hu) (hthreads ▸ hv),
      owned := fun r hr hfl => ?_,
      leader := fun u v hu hv => h.leader u v (hleads u (hthreads ▸ hu)) (hleads v (hthreads ▸ hv)),
      syncing := fun u hu => h.syncing u (hleads u (hthreads ▸ hu)), stable := h.stable,
      lost := fun o ho => ?_, acks := h.acks }
  · rcases List.mem_append.mp hp with hp | hp
    · exact h.fits p hp
    · rw [List.mem_singleton.mp hp]
      exact hlen
  · rw [htail]
    show _ = s.wal.head + (frames (s.log ++ [record])).length
    rw [h.tail_eq, frames_append, List.length_append]
    simp [Nat.add_assoc]
  · rw [htail]
    show s.reserved + framedLen record.length = _
    rw [h.reserved_eq]
  · rw [htail]
    exact Nat.le_trans h.size_le (Nat.le_add_right _ _)
  · rw [h.reserve_ranges]
    exact h.tracks.reserve (ranges_tiles h) rfl
  · rw [h.reserve_records] at hr
    rcases List.mem_append.mp hr with hr | hr
    · rw [(h.reserve_kept hr).2] at hw
      exact h.holds r hr hw
    · rw [List.mem_singleton.mp hr, reserve_status_self] at hw
      cases hw
  · rw [hthreads]
    by_cases hu : u = t
    · rw [hu, setPc_self]
      refine ⟨?_, reserve_status_self s, Nat.zero_le _, by simp⟩
      rw [h.reserve_records]
      exact List.mem_append_right _ List.mem_cons_self
    · rw [setPc_ne _ _ hu]
      exact (h.thread u).mono (fun r hr _ => h.reserve_kept hr) rfl rfl
        fun _ => ⟨rfl, Nat.le_refl _, rfl⟩
  · rw [h.reserve_records] at hr
    rw [hthreads]
    rcases List.mem_append.mp hr with hr | hr
    · rw [(h.reserve_kept hr).2] at hfl
      obtain ⟨u, hu⟩ := h.owned r hr hfl
      exact ⟨u, by rw [setPc_ne _ _ (fun he => by rw [he, ht] at hu; cases hu), hu]⟩
    · refine ⟨t, ?_⟩
      rw [setPc_self, List.mem_singleton.mp hr]
      rfl
  · rw [hthreads]
    exact h.lost_follows hnl (setPc_follows _ _) ho

end Reserve

/-! ## Writing a reserved range -/

/-- Two records of the log that start apart do not meet. -/
theorem Inv.disjoint {s : Sys} (h : Inv s) {r r' : Nat × List UInt8} (hr : r ∈ s.records)
    (hr' : r' ∈ s.records) (hne : r.1 ≠ r'.1) :
    r.1 + framedLen r.2.length ≤ r'.1 ∨ r'.1 + framedLen r'.2.length ≤ r.1 := by
  rcases (ranges_tiles h).disjoint (mem_spans hr) (mem_spans hr') with heq | hle | hle
  · exact absurd (congrArg Span.lo heq) hne
  · exact Or.inl hle
  · exact Or.inr hle

/-- A step of the thread that owns the range `own`, after which the store differs
from before inside that range only. -/
structure Writes (s : Sys) (own : Nat × List UInt8) (d : Disk) : Prop where
  le_length : s.wal.store.data.length ≤ d.data.length
  length_le : d.data.length ≤ s.wal.tail
  outside : ∀ o, o < s.wal.store.data.length →
    o < own.1 ∨ own.1 + framedLen own.2.length ≤ o → d.data[o]? = s.wal.store.data[o]?
  returned : ∀ o, s.wal.store.returned o = true → d.returned o = true
  stable : d.stable = s.wal.store.stable
  lost : d.lost = s.wal.store.lost

/-- A range that was read whole and lies outside the written one reads the same. -/
theorem Writes.read {s : Sys} {own : Nat × List UInt8} {d : Disk} (hw : Writes s own d)
    {off n : Nat} {bs : List UInt8}
    (hread : (Image.ofList s.wal.store.data).read off n = some bs)
    (hdis : off + n ≤ own.1 ∨ own.1 + framedLen own.2.length ≤ off) :
    (Image.ofList d.data).read off n = some bs := by
  rw [← hread]
  apply Image.read_congr
  intro i hi
  have hlt : off + i < s.wal.store.data.length := by
    by_contra hge
    have hnone : (Image.ofList s.wal.store.data) (off + i) = none :=
      List.getElem?_eq_none (by omega)
    rw [Image.read_eq_none_iff.mpr ⟨i, hi, hnone⟩] at hread
    cases hread
  exact hw.outside _ hlt (by omega)

section OfWrite

variable {s : Sys} {own : Nat × List UInt8} {d : Disk}

/-- Bytes below the watermark are not touched. -/
theorem Writes.below (hw : Writes s own d) (h : Inv s) (hmem : own ∈ s.records)
    (hfl : s.status own.1 = .inflight) {o : Nat} (ho : o < s.wal.commit.committed) :
    d.data[o]? = s.wal.store.data[o]? := by
  have hge : s.wal.commit.committed ≤ own.1 :=
    h.tracks.committed_le (mem_spans hmem) (by show s.status own.1 ≠ _; rw [hfl]; decide)
  exact hw.outside o (h.below_committed ho).2 (Or.inl (by omega))

theorem Writes.stableBelow (hw : Writes s own d) (h : Inv s) (hmem : own ∈ s.records)
    (hfl : s.status own.1 = .inflight) {n : Nat} (hn : n ≤ s.wal.commit.committed)
    (hst : s.wal.store.StableBelow n) : d.StableBelow n := by
  refine ⟨Nat.le_trans hst.1 hw.le_length, fun o ho => ?_⟩
  rw [hw.stable, hst.2 o ho, hw.below h hmem hfl (Nat.lt_of_lt_of_le ho hn)]

/-- The other records are not touched. -/
theorem Writes.holds (hw : Writes s own d) (h : Inv s) (hmem : own ∈ s.records)
    {r : Nat × List UInt8} (hr : r ∈ s.records) (hne : r.1 ≠ own.1) (hold : s.wal.store.Holds r) :
    d.Holds r :=
  ⟨hw.read hold.1 (h.disjoint hr hmem hne), fun o h1 h2 => hw.returned o (hold.2 o h1 h2)⟩

/-- What the position of a thread says that does not own the range. -/
theorem Writes.threadInv (hw : Writes s own d) (h : Inv s) (hmem : own ∈ s.records)
    (hfl : s.status own.1 = .inflight) {pc : Pc} (hth : ThreadInv s pc)
    (hother : ∀ start, pc.owns = some start → start ≠ own.1) : ThreadInv (s.withStore d) pc := by
  cases pc <;> simp only [ThreadInv] at hth ⊢
  case writing start rec done ts =>
    obtain ⟨hr, hst, hdone, hread⟩ := hth
    refine ⟨hr, hst, hdone, hw.read hread ?_⟩
    have := h.disjoint hr hmem (hother start rfl)
    dsimp only at this
    omega
  case marking start rec ok ts =>
    exact ⟨hth.1, hth.2.1, fun hok => hw.holds h hmem hth.1 (hother start rfl) (hth.2.2 hok)⟩
  case flushing target flushTo snap =>
    obtain ⟨hd, hc, hl, hsnap, hlost⟩ := hth
    refine ⟨hd, hc, Nat.le_trans hl hw.le_length, fun o ho => ?_, fun o => ?_⟩
    · rw [hsnap o ho]
      exact (hw.below h hmem hfl (Nat.lt_of_lt_of_le ho hc)).symm
    · show d.lost o = false
      rw [hw.lost]
      exact hlost o
  case relocking target flushTo ok =>
    exact ⟨hth.1, fun hok => hw.stableBelow h hmem hfl hth.1 (hth.2 hok)⟩

theorem Inv.of_write (h : Inv s) {t : Nat} {pc : Pc} (hmem : own ∈ s.records)
    (hfl : s.status own.1 = .inflight) (hw : Writes s own d)
    (hold : (s.threads t).owns = some own.1) (hnl : (s.threads t).leads = false)
    (hown : pc.owns = some own.1) (hpl : pc.leads = false)
    (hthread : ThreadInv (s.withStore d) pc) :
    Inv { s.withStore d with threads := setPc s.threads t pc } := by
  have hroles := setPc_roles s.threads (hown.trans hold.symm) (hpl.trans hnl.symm)
  refine
    { max_lt := h.max_lt, fits := h.fits, tail_eq := h.tail_eq, reserved_eq := h.reserved_eq,
      head_le := Nat.le_trans h.head_le hw.le_length, size_le := hw.length_le, tracks := h.tracks,
      returned_head := fun o ho => hw.returned o (h.returned_head o ho),
      holds := fun r hr (hwr : s.status r.1 = .written) =>
        hw.holds h hmem hr (fun he => by rw [he, hfl] at hwr; cases hwr) (h.holds r hr hwr),
      thread := fun u => ?_,
      owner := fun u v a hu hv => h.owner u v a ((hroles u).1 ▸ hu) ((hroles v).1 ▸ hv),
      owned := fun r hr hfl => ?_,
      leader := fun u v hu hv => h.leader u v ((hroles u).2 ▸ hu) ((hroles v).2 ▸ hv),
      syncing := fun u hu => h.syncing u ((hroles u).2 ▸ hu),
      stable := hw.stableBelow h hmem hfl h.tracks.durable_le h.stable, lost := fun o ho => ?_,
      acks := h.acks }
  · show ThreadInv _ (setPc s.threads t pc u)
    by_cases hu : u = t
    · rw [hu, setPc_self]
      exact hthread.of_eq rfl rfl rfl fun _ => ⟨rfl, rfl⟩
    · rw [setPc_ne _ _ hu]
      exact (hw.threadInv h hmem hfl (h.thread u)
        fun start hs he => hu (h.owner u t own.1 (he ▸ hs) hold)).of_eq rfl rfl rfl
          fun _ => ⟨rfl, rfl⟩
  · obtain ⟨u, hu⟩ := h.owned r hr hfl
    exact ⟨u, by show (setPc s.threads t pc u).owns = _; rw [(hroles u).1, hu]⟩
  · refine h.lost_follows hnl (setPc_follows _ _) (?_ : s.wal.store.lost o = true)
    rw [← hw.lost]
    exact ho

end OfWrite

/-- Some bytes of the frame arrive. -/
theorem Inv.land {s : Sys} (h : Inv s) {t start done n : Nat} {record : List UInt8} {ts : Bool}
    (ht : s.threads t = .writing start record done ts) (hn : done + n ≤ framedLen record.length) :
    Inv { s.withStore (s.wal.store.land (start + done) (((encode [] record).drop done).take n)) with
          threads := setPc s.threads t (.writing start record (done + n) ts) } := by
  have hth := h.thread t
  rw [ht] at hth
  obtain ⟨hmem, hfl, hdone, hread⟩ := hth
  have hbounds := (h.record_bounds hmem).2
  have hlen : (((frame record).drop done).take n).length = n := by
    rw [List.length_take, List.length_drop, frame_length]
    omega
  have hw : Writes s (start, record)
      (s.wal.store.land (start + done) (((frame record).drop done).take n)) := by
    refine ⟨?_, ?_, fun o ho hdis => ?_, fun o ho => ho, rfl, rfl⟩
    · show _ ≤ (overwrite _ _ _).length
      rw [length_overwrite]
      omega
    · show (overwrite _ _ _).length ≤ _
      rw [length_overwrite, hlen]
      have := h.size_le
      dsimp only at hbounds
      omega
    · show (overwrite _ _ _)[o]? = _
      refine getElem?_overwrite_out ?_ ho
      rw [hlen]
      dsimp only at hdis
      omega
  refine h.of_write hmem hfl hw (by rw [ht]; rfl) (by rw [ht]; rfl) rfl rfl ?_
  refine ⟨hmem, hfl, hn, ?_⟩
  -- The bytes that were there, followed by the ones that arrived.
  have hold : (Image.ofList (overwrite s.wal.store.data (start + done)
      (((frame record).drop done).take n))).read start done = some ((frame record).take done) := by
    rw [← hread]
    refine Image.read_congr fun i hi => getElem?_overwrite_out (Or.inl (by omega)) ?_
    by_contra hge
    have hnone : (Image.ofList s.wal.store.data) (start + i) = none :=
      List.getElem?_eq_none (by omega)
    rw [Image.read_eq_none_iff.mpr ⟨i, hi, hnone⟩] at hread
    cases hread
  have hnew : (Image.ofList (overwrite s.wal.store.data (start + done)
      (((frame record).drop done).take n))).read (start + done) n =
        some (((frame record).drop done).take n) := by
    refine Image.read_eq_some_iff.mpr ⟨hlen, fun i hi => ?_⟩
    show (overwrite _ _ _)[start + done + i]? = _
    rw [getElem?_overwrite_in (by omega) (by omega), Nat.add_sub_cancel_left]
  have hall := (Image.read_append_iff (Image.read_length hold) hlen).mpr ⟨hold, hnew⟩
  rw [List.take_add]
  exact hall

/-- A write that leaves the store as it is. -/
theorem Writes.refl {s : Sys} (h : Inv s) (own : Nat × List UInt8) : Writes s own s.wal.store :=
  ⟨Nat.le_refl _, h.size_le, fun _ _ _ => rfl, fun _ ho => ho, rfl, rfl⟩

/-- The write returns with the whole frame in the store. -/
theorem Inv.wroteOk {s : Sys} (h : Inv s) {t start : Nat} {record : List UInt8} {ts : Bool}
    (ht : s.threads t = .writing start record (framedLen record.length) ts) :
    Inv { s.withStore (s.wal.store.finish start (framedLen record.length)) with
          threads := setPc s.threads t (.marking start record true ts) } := by
  have hth := h.thread t
  rw [ht] at hth
  obtain ⟨hmem, hfl, -, hread⟩ := hth
  rw [← frame_length record, List.take_length, frame_length] at hread
  have hw : Writes s (start, record) (s.wal.store.finish start (framedLen record.length)) := by
    refine ⟨Nat.le_refl _, h.size_le, fun _ _ _ => rfl, fun o ho => ?_, rfl, rfl⟩
    simp [Disk.finish, ho]
  refine h.of_write hmem hfl hw (by rw [ht]; rfl) (by rw [ht]; rfl) rfl rfl ?_
  refine ⟨hmem, hfl, fun _ => ⟨hread, fun o h1 h2 => ?_⟩⟩
  show (s.wal.store.returned o || (decide (start ≤ o) && decide (o < start + _))) = true
  dsimp only at h1 h2
  simp [h1, h2]

/-- The write fails, having put any part of the frame into the store. -/
theorem Inv.wroteErr {s : Sys} (h : Inv s) {t start done : Nat} {record : List UInt8} {ts : Bool}
    (ht : s.threads t = .writing start record done ts) :
    Inv { s with threads := setPc s.threads t (.marking start record false ts) } := by
  have hth := h.thread t
  rw [ht] at hth
  obtain ⟨hmem, hfl, -, -⟩ := hth
  exact h.of_write hmem hfl (Writes.refl h (start, record)) (by rw [ht]; rfl) (by rw [ht]; rfl) rfl
    rfl ⟨hmem, hfl, fun hok => by cases hok⟩

/-! ## Settling a write -/

theorem settle_follows (s : Sys) {t u start : Nat} {status : Commit.Status}
    {r : Commit.State × Bool} {pc : Pc} (hu : u ≠ t) :
    Follows (s.threads u) ((s.settle t start status r pc).threads u) := by
  show Follows _ (setPc (if r.2 = true then notifyAll s.threads else s.threads) t pc u)
  rw [setPc_ne _ _ hu]
  split
  · exact notifyAll_follows s.threads u
  · exact Or.inl rfl

/-- A write ends, well or not, under the lock. -/
theorem Inv.settle {s : Sys} (h : Inv s) {t : Nat} {own : Nat × List UInt8}
    {status : Commit.Status} {r : Commit.State × Bool} {pc : Pc}
    (hmem : own ∈ s.records) (hst : status ≠ .inflight)
    (hold : (s.threads t).owns = some own.1) (hnl : (s.threads t).leads = false)
    (hheld : status = .written → s.wal.store.Holds own)
    (htracks : Commit.Tracks s.wal.head s.ranges (Commit.setStatus s.status own.1 status) r.1)
    (hcom : s.wal.commit.committed ≤ r.1.committed) (hdur : r.1.durable = s.wal.commit.durable)
    (hsy : r.1.syncing = s.wal.commit.syncing)
    (hff : r.1.flushFailed = s.wal.commit.flushFailed)
    (hpo : pc.owns = none) (hpl : pc.leads = false) (hpc : ∀ s', ThreadInv s' pc) :
    Inv (s.settle t own.1 status r pc) := by
  have hthreads : ∀ u, u ≠ t → Follows (s.threads u) ((s.settle t own.1 status r pc).threads u) :=
    fun u hu => settle_follows s hu
  have hself : (s.settle t own.1 status r pc).threads t = pc := setPc_self _ _ _
  have hother : ∀ a, a ≠ own.1 → (s.settle t own.1 status r pc).status a = s.status a :=
    fun a ha => Commit.setStatus_ne _ _ ha
  have hat : (s.settle t own.1 status r pc).status own.1 = status := Commit.setStatus_self _ _ _
  -- A thread that owns a range now owned it before, and is not `t`.
  have howns : ∀ u a, ((s.settle t own.1 status r pc).threads u).owns = some a →
      u ≠ t ∧ (s.threads u).owns = some a := by
    intro u a hu
    by_cases hut : u = t
    · rw [hut, hself, hpo] at hu
      cases hu
    · exact ⟨hut, by rw [← (hthreads u hut).owns, hu]⟩
  have hleads : ∀ u, ((s.settle t own.1 status r pc).threads u).leads = true →
      (s.threads u).leads = true := fun u hu =>
    leads_of_follows hthreads (by rw [hself, hpl]) hu
  refine
    { max_lt := h.max_lt, fits := h.fits, tail_eq := h.tail_eq, reserved_eq := h.reserved_eq,
      head_le := h.head_le, size_le := h.size_le, tracks := htracks,
      returned_head := h.returned_head, holds := fun q hq hw => ?_, thread := fun u => ?_,
      owner := fun u v a hu hv => h.owner u v a (howns u a hu).2 (howns v a hv).2,
      owned := fun q hq hfl' => ?_,
      leader := fun u v hu hv => h.leader u v (hleads u hu) (hleads v hv),
      syncing := fun u hu => ?_, stable := ?_, lost := fun o ho => ?_, acks := ?_ }
  · by_cases he : q.1 = own.1
    · rw [he, hat] at hw
      rw [located_unique hq hmem he]
      exact hheld hw
    · rw [hother _ he] at hw
      exact h.holds q hq hw
  · by_cases hut : u = t
    · rw [hut, hself]
      exact hpc _
    · refine (hthreads u hut).threadInv ?_
      have hne : ∀ start, (s.threads u).owns = some start → start ≠ own.1 :=
        fun start hs he => hut (h.owner u t own.1 (he ▸ hs) hold)
      exact (h.thread u).mono (fun q hq hs => ⟨hq, hother q.1 (hne q.1 hs)⟩) rfl rfl
        fun _ => ⟨rfl, hcom, hdur⟩
  · by_cases he : q.1 = own.1
    · rw [he, hat] at hfl'
      exact absurd hfl' hst
    · rw [hother _ he] at hfl'
      obtain ⟨u, hu⟩ := h.owned q hq hfl'
      have hut : u ≠ t := fun hut => by
        rw [hut, hold] at hu
        exact he (Option.some.inj hu).symm
      exact ⟨u, by rw [(hthreads u hut).owns, hu]⟩
  · show r.1.syncing = true
    rw [hsy]
    exact h.syncing u (hleads u hu)
  · show s.wal.store.StableBelow r.1.durable
    rw [hdur]
    exact h.stable
  · show r.1.flushFailed = true ∨ _
    rw [hff]
    exact h.lost_follows hnl hthreads ho
  · show ∀ T ∈ s.acks, T ≤ r.1.durable
    rw [hdur]
    exact h.acks

theorem Inv.markOk {s : Sys} (h : Inv s) {t start : Nat} {record : List UInt8} {ts : Bool}
    (ht : s.threads t = .marking start record true ts) :
    Inv (s.settle t start .written
      (Commit.markWritten s.wal.commit start (start + framedLen record.length))
      (if ts then .entering (start + framedLen record.length) else .idle)) := by
  have hth := h.thread t
  rw [ht] at hth
  obtain ⟨hmem, hfl, hheld⟩ := hth
  have htile := ranges_tiles h
  obtain ⟨-, -, hcom⟩ := h.tracks.folds_insertRegion htile (mem_spans hmem) hfl
  obtain ⟨hdur, hsy, -, -, hff⟩ :=
    Commit.insertRegion_frame s.wal.commit start (start + framedLen record.length)
  refine @Inv.settle s h t (start, record) _ _ _ hmem (by decide) (by rw [ht]; rfl)
    (by rw [ht]; rfl) (fun _ => hheld rfl) (h.tracks.markWritten htile (mem_spans hmem) hfl) hcom
    hdur hsy hff ?_ ?_ ?_
  all_goals cases ts <;> simp [Pc.owns, Pc.leads, ThreadInv]

theorem Inv.markErr {s : Sys} (h : Inv s) {t start : Nat} {record : List UInt8} {ts : Bool}
    (ht : s.threads t = .marking start record false ts) :
    Inv (s.settle t start .failed (Commit.markFailed s.wal.commit start) .idle) := by
  have hth := h.thread t
  rw [ht] at hth
  obtain ⟨hmem, hfl, -⟩ := hth
  exact @Inv.settle s h t (start, record) _ _ _ hmem (by decide) (by rw [ht]; rfl)
    (by rw [ht]; rfl) (fun he => by cases he) (h.tracks.markFailed (mem_spans hmem) hfl)
    (Nat.le_refl _) rfl rfl rfl rfl rfl (fun _ => trivial)

/-! ## Flushing -/

/-- What a flush leaves of the store that it was called on: nothing that can be read. -/
theorem flushEnd_data (d : Disk) (snap : Image UInt8) (ok : Bool) (dropped : Nat → Bool) :
    (if ok then d.flushed snap else d.flushFailed dropped).data = d.data ∧
      (if ok then d.flushed snap else d.flushFailed dropped).returned = d.returned := by
  cases ok <;> exact ⟨rfl, rfl⟩

/-- A flush that succeeds makes the bytes stable that it was to cover. -/
theorem flushed_stable {d : Disk} {snap : Image UInt8} {flushTo o : Nat}
    (hsnap : ∀ o, o < flushTo → snap o = d.data[o]?) (hlen : flushTo ≤ d.data.length)
    (hlost : ∀ o, d.lost o = false) (ho : o < flushTo) :
    (d.flushed snap).stable o = d.data[o]? := by
  show (if d.lost o then d.stable o else (snap o).or (d.stable o)) = _
  rw [hlost o, hsnap o ho, List.getElem?_eq_getElem (by omega)]
  rfl

/-- The store's `sync` returns to the leader. -/
theorem Inv.flush {s : Sys} (h : Inv s) {t target flushTo : Nat} {snap : Image UInt8}
    (ht : s.threads t = .flushing target flushTo snap) (ok : Bool) (dropped : Nat → Bool) :
    Inv { s.withStore (if ok then s.wal.store.flushed snap else s.wal.store.flushFailed dropped) with
          threads := setPc s.threads t (.relocking target flushTo ok) } := by
  have hth := h.thread t
  rw [ht] at hth
  obtain ⟨hdur, hcom, hlen, hsnap, hnolost⟩ := hth
  obtain ⟨hdata, hret⟩ := flushEnd_data s.wal.store snap ok dropped
  generalize hd : (if ok then s.wal.store.flushed snap else s.wal.store.flushFailed dropped) = d
    at hdata hret
  have hleadt : (s.threads t).leads = true := by rw [ht]; rfl
  have hflushed : ok = true → ∀ o, o < flushTo → d.stable o = s.wal.store.data[o]? := by
    intro hok o ho
    rw [← hd, hok]
    exact flushed_stable hsnap hlen hnolost ho
  have hstable : ∀ o, o < s.wal.commit.durable → d.stable o = s.wal.store.data[o]? := by
    intro o ho
    cases hok : ok with
    | true => exact hflushed hok o (by omega)
    | false =>
        rw [← hd, hok]
        exact h.stable.2 o ho
  have howns : (Pc.relocking target flushTo ok).owns = (s.threads t).owns := by rw [ht]; rfl
  have hroles := setPc_roles s.threads howns hleadt.symm
  refine
    { max_lt := h.max_lt, fits := h.fits, tail_eq := h.tail_eq, reserved_eq := h.reserved_eq,
      head_le := ?_, size_le := ?_, tracks := h.tracks, returned_head := ?_,
      holds := fun r hr hw => ?_, thread := fun u => ?_,
      owner := fun u v a hu hv => h.owner u v a ((hroles u).1 ▸ hu) ((hroles v).1 ▸ hv),
      owned := fun r hr hfl => ?_,
      leader := fun u v hu hv => h.leader u v ((hroles u).2 ▸ hu) ((hroles v).2 ▸ hv),
      syncing := fun u hu => h.syncing u ((hroles u).2 ▸ hu),
      stable := ⟨?_, fun o ho => ?_⟩, lost := fun o ho => ?_, acks := h.acks }
  · show s.wal.head ≤ d.data.length
    rw [hdata]
    exact h.head_le
  · show d.data.length ≤ s.wal.tail
    rw [hdata]
    exact h.size_le
  · show ∀ o, o < s.wal.head → d.returned o = true
    rw [hret]
    exact h.returned_head
  · show (Image.ofList d.data).read r.1 _ = _ ∧ ∀ o, _ → _ → d.returned o = true
    rw [hdata, hret]
    exact h.holds r hr hw
  · show ThreadInv _ (setPc s.threads t (.relocking target flushTo ok) u)
    by_cases hu : u = t
    · rw [hu, setPc_self]
      refine ⟨hcom, fun hok => ⟨?_, fun o ho => ?_⟩⟩
      · show flushTo ≤ d.data.length
        rw [hdata]
        exact hlen
      · show d.stable o = d.data[o]?
        rw [hdata]
        exact hflushed hok o ho
    · rw [setPc_ne _ _ hu]
      refine (h.thread u).mono (fun r hr _ => ⟨hr, rfl⟩) hdata hret fun hl => ?_
      rw [h.leads_alone hleadt hu] at hl
      cases hl
  · obtain ⟨u, hu⟩ := h.owned r hr hfl
    exact ⟨u, by show (setPc s.threads t _ u).owns = _; rw [(hroles u).1, hu]⟩
  · show s.wal.commit.durable ≤ d.data.length
    rw [hdata]
    exact h.stable.1
  · show d.stable o = d.data[o]?
    rw [hdata]
    exact hstable o ho
  · cases hok : ok with
    | true =>
        have hno : d.lost o = false := by
          rw [← hd, hok]
          exact hnolost o
        have ho' : d.lost o = true := ho
        rw [hno] at ho'
        cases ho'
    | false =>
        refine Or.inr ⟨t, target, flushTo, ?_⟩
        show setPc s.threads t (.relocking target flushTo false) t = _
        rw [setPc_self]

/-- The leader takes the lock again. -/
theorem Inv.relock {s : Sys} (h : Inv s) {t target flushTo : Nat} {ok : Bool}
    (ht : s.threads t = .relocking target flushTo ok) (pc : Pc) (hpo : pc.owns = none)
    (hpl : pc.leads = false) (hpc : ∀ s', ThreadInv s' pc) :
    Inv { s.withCommit (Commit.afterFlush s.wal.commit flushTo ok) with
          threads := setPc (notifyAll s.threads) t pc } := by
  have hth := h.thread t
  rw [ht] at hth
  obtain ⟨hcom, hstable⟩ := hth
  have hnone : ∀ u, u ≠ t → (s.threads u).leads = false := fun u =>
    h.leads_alone (by rw [ht]; rfl)
  have hothers : ∀ u, u ≠ t → Follows (s.threads u) (setPc (notifyAll s.threads) t pc u) := by
    intro u hu
    rw [setPc_ne _ _ hu]
    exact notifyAll_follows _ u
  -- Nobody leads any more.
  have hnolead : ∀ u, (setPc (notifyAll s.threads) t pc u).leads = false := by
    intro u
    by_cases hu : u = t
    · rw [hu, setPc_self, hpl]
    · rw [(hothers u hu).leads, hnone u hu]
  have hdurable : s.wal.store.StableBelow (Commit.afterFlush s.wal.commit flushTo ok).durable ∧
      (Commit.afterFlush s.wal.commit flushTo ok).durable ≤ s.wal.commit.committed ∧
      s.wal.commit.durable ≤ (Commit.afterFlush s.wal.commit flushTo ok).durable := by
    cases hok : ok with
    | false => exact ⟨h.stable, h.tracks.durable_le, Nat.le_refl _⟩
    | true =>
        by_cases hlt : s.wal.commit.durable < flushTo
        · simp only [Commit.afterFlush, if_true, if_pos hlt]
          exact ⟨hstable hok, hcom, Nat.le_of_lt hlt⟩
        · simp only [Commit.afterFlush, if_true, if_neg hlt]
          exact ⟨h.stable, h.tracks.durable_le, Nat.le_refl _⟩
  have hsame : (Commit.afterFlush s.wal.commit flushTo ok).committed = s.wal.commit.committed ∧
      (Commit.afterFlush s.wal.commit flushTo ok).pending = s.wal.commit.pending ∧
      (Commit.afterFlush s.wal.commit flushTo ok).poison = s.wal.commit.poison := by
    cases ok
    · exact ⟨rfl, rfl, rfl⟩
    · by_cases hlt : s.wal.commit.durable < flushTo <;> simp [Commit.afterFlush, hlt]
  refine h.of_sync hsame.1 hsame.2.1 hsame.2.2 hdurable.1 hdurable.2.1 (Or.inr hnone)
    (by rw [ht]; rfl) hothers (by rw [setPc_self, hpo]) (by rw [setPc_self]; exact hpc _)
    (fun _ => hnone) (fun u hu => ?_) (fun o ho => ?_)
    (fun T hT => Nat.le_trans (h.acks T hT) hdurable.2.2)
  · rw [hnolead u] at hu
    cases hu
  · cases hok : ok with
    | false => exact Or.inl rfl
    | true =>
        rcases h.lost o ho with hf | ⟨u, T, F, hu⟩
        · refine Or.inl ?_
          by_cases hlt : s.wal.commit.durable < flushTo <;> simp [Commit.afterFlush, hlt, hf]
        · have hut : u = t := by
            by_contra hne
            have := hnone u hne
            rw [hu] at this
            cases this
          rw [hut, ht, hok] at hu
          cases hu

/-! ## Every step -/

/-- What no step changes, and what can only grow, by at most `room`. -/
structure SameLog (room : Nat) (s s' : Sys) : Prop where
  head_eq : s'.wal.head = s.wal.head
  max_eq : s'.wal.maxRecordSize = s.wal.maxRecordSize
  reserved_ge : s.reserved ≤ s'.reserved
  reserved_le : s'.reserved ≤ s.reserved + room

theorem SameLog.refl (room : Nat) (s : Sys) : SameLog room s s :=
  ⟨rfl, rfl, Nat.le_refl _, Nat.le_add_right _ _⟩

theorem SameLog.round {room : Nat} {s s' : Sys} (h : SameLog room s s') (t target : Nat) :
    SameLog room s (s'.round t target) := by
  obtain ⟨st, pc, acks, heq⟩ := s'.round_eq t target
  rw [heq]
  exact ⟨h.1, h.2, h.3, h.4⟩

/-- The bytes an action may reserve. -/
def room : Action → Nat
  | .append _ record _ => framedLen record.length
  | _ => 0

theorem step_sameLog {s s' : Sys} {a : Action} (h : step s a = some s') :
    SameLog (room a) s s' := by
  cases takes_of_step h with
  | refuse => exact .refl _ s
  | reserve => exact ⟨rfl, rfl, Nat.le_add_right _ _, Nat.le_refl _⟩
  | enter | wake | relockOk =>
      refine SameLog.round ?_ _ _
      exact ⟨rfl, rfl, Nat.le_refl _, Nat.le_refl _⟩
  | _ => exact ⟨rfl, rfl, Nat.le_refl _, Nat.le_refl _⟩

theorem Inv.ack {s : Sys} (h : Inv s) {T : Nat} (hT : T ≤ s.wal.commit.durable) :
    Inv { s with acks := T :: s.acks } := by
  have hacks : ∀ U ∈ T :: s.acks, U ≤ s.wal.commit.durable := by
    intro U hU
    rcases List.mem_cons.mp hU with rfl | hU
    · exact hT
    · exact h.acks U hU
  exact { h with acks := hacks }

/-- Every step keeps the invariant, as long as the offsets fit. -/
theorem Inv.step {s s' : Sys} (h : Inv s) {a : Action} (hstep : step s a = some s')
    (hres : s'.reserved < 2 ^ 64) : Inv s' := by
  cases takes_of_step hstep with
  | refuse => exact h
  | reserve ht hlen => exact h.reserve ht hlen hres
  | land ht hn => exact h.land ht hn
  | wroteOk ht => exact h.wroteOk ht
  | wroteErr ht => exact h.wroteErr ht
  | markOk ht => exact h.markOk ht
  | markErr ht => exact h.markErr ht
  | @markOverflow t start ht =>
      have hth := h.thread t
      rw [ht] at hth
      exact hth.elim
  | syncEmpty => exact h.ack (Nat.zero_le _)
  | sync ht => exact h.move _ _ (by rw [ht]; rfl) (by rw [ht]; rfl) rfl rfl fun _ => trivial
  | enter ht => exact h.round ht
  | flush ht => exact h.flush ht _ _
  | @relockOk t target flushTo ht =>
      rw [← round_setPc _ t target (.entering target)]
      exact (h.relock ht (.entering target) rfl rfl fun _ => trivial).round (setPc_self _ _ _)
  | relockErr ht => exact h.relock ht .idle rfl rfl fun _ => trivial
  | spurious ht => exact h.move _ _ (by rw [ht]; rfl) (by rw [ht]; rfl) rfl rfl fun _ => trivial
  | @wake t target ht =>
      rw [← round_setPc _ t target (.entering target)]
      exact (h.move (.entering target) _ (by rw [ht]; rfl) (by rw [ht]; rfl) rfl rfl
        fun _ => trivial).round (setPc_self _ _ _)

end Sys
end WalDb
