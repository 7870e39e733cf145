/-
Offsets that are not boundaries of records.

`truncate_after` and `iter_from` take an LSN from the caller and look at the bytes there,
not at the way to it from the head.  A payload may hold the bytes of a whole record, and
inside such a payload both take an offset for the LSN of a record.  Elsewhere
`truncate_after` reports corruption (`truncateAfter_none`), and so does `iter_from`,
unless the length it reads points past the end of the store.
-/
import WalDb.Damage
import WalDb.Restart
import WalDb.Segment.Sound
import WalDb.Segment.Striping

namespace WalDb

open Lib Record

/-- From a state that satisfies `P` the store, which is `size` bytes long, can be cut anywhere
and flushed. -/
def Cuts {S : Type} [WalStore S] (size : Nat) (P : S → Prop) : Prop :=
  ∀ len ≤ size, ∀ s : S, P s → ∃ s' s'', WalStore.truncate len s = (.ok (), s') ∧
    WalStore.sync s' = (.ok (), s'')

theorem MemStore.cuts (size : Nat) (P : MemStore → Prop) : Cuts size P :=
  fun _ _ _ _ => ⟨_, _, rfl, rfl⟩

theorem FileStore.cuts {s : FileStore} (h : s.faults = []) :
    Cuts s.file.written.length (· = s) := by
  rintro len hle s rfl
  have hlt : (s.file.setLen len).written.length < 2 ^ 63 := by
    have := s.written_lt
    simp only [File.setLen, List.length_append, List.length_take, List.length_replicate]
    omega
  have htrunc : WalStore.truncate len s =
      (.ok (), { s with file := s.file.setLen len, written_lt := hlt }) := by
    show truncate len s = _
    rw [truncate, Act.bind_ok (os_ok h _)]
    exact dif_pos hlt
  exact ⟨_, _, htrunc, sync_ok h⟩

theorem SegmentedStore.cuts (s : SegmentedStore) (size : Nat) :
    Cuts size (SegmentedStore.SameFiles s) := by
  intro len _ s1 hs1
  obtain ⟨s2, htrunc, hs2⟩ := SegmentedStore.truncate_ok hs1.toReady len
  obtain ⟨s3, hsync, -⟩ := SegmentedStore.sync_ok hs2.toReady
  exact ⟨s2, s3, htrunc, hsync⟩

namespace Wal

variable {S : Type} [WalStore S] {img : Image UInt8} {size : Nat} {P : S → Prop}

/-- Iterating over the log yields a record with the LSN `x`. -/
def Yields (wal : Wal S) (x : Nat) : Prop :=
  ∃ items r, (wal.iter.collect wal).1 = .ok items ∧ Except.ok r ∈ items ∧ r.lsn = x

variable {reach : Nat → Nat → Prop}

/-- From an offset between the head and the watermark the first item is an error exactly
where the bytes do not run out and are no record. -/
theorem iterFrom_error_iff (B : Bounded img size P) {wal : Wal S}
    (hm : wal.maxRecordSize < 2 ^ 32) (hP : P wal.store) (hc : wal.commit.committed < 2 ^ 64)
    {x : Nat} (hlo : wal.head < x) (hhi : x < wal.commit.committed) :
    (∃ detail it' wal', (wal.iterFrom x).next wal =
        (.ok (some (.error (.corruption x detail)), it'), wal')) ↔
      ¬ RunsOut img wal.maxRecordSize x ∧ recordAt img wal.maxRecordSize x = none := by
  have hstart : (wal.iterFrom x).offset = x := by
    show min (max x wal.head) wal.commit.committed = x
    omega
  have hoff : (wal.iterFrom x).offset < 2 ^ 64 := by
    rw [hstart]
    omega
  obtain ⟨s1, hstep, -⟩ := Iter.step_eq_look B hoff hP
  have hnext := Iter.next_of_step rfl (by rw [hstart]; exact hhi) hstep
  rw [hstart] at hnext
  rw [hnext, ← look_eq_ended_iff]
  cases hx : recordAt img wal.maxRecordSize x with
  | some p =>
      rw [look_record hm hx]
      exact iff_of_false (fun ⟨_, _, _, h⟩ => by cases h) fun h => by cases h.2
  | none =>
      rcases look_none hx with hended | ⟨detail, next, hdamaged⟩
      · rw [hended]
        exact iff_of_false (fun ⟨_, _, _, h⟩ => by cases h) fun h => h.1 rfl
      · obtain ⟨it', hafter⟩ := (wal.iterFrom x).after_damaged (.corruption x detail) next
        rw [hdamaged, hafter]
        exact iff_of_true ⟨detail, it', _, rfl⟩ ⟨nofun, rfl⟩

/-- One byte into a record the length that is read is above the maximum. -/
theorem iterFrom_error_iff_inside :
    ∃ wal : Wal SegmentedStore, freshLog smallRecords 4 [[1]] = some wal ∧
      ∃ detail it' wal', (wal.iterFrom 1).next wal =
        (.ok (some (.error (.corruption 1 detail)), it'), wal') := by
  have hobs : ((freshLog smallRecords 4 [[1]]).map fun wal =>
      decide (wal.head < 1 ∧ 1 < wal.commit.committed ∧ wal.commit.committed < 2 ^ 64 ∧
        recordAt wal.store.image wal.maxRecordSize 1 = none ∧
        ((wal.store.image.read 1 headerLen).map fun header =>
          decide (wal.maxRecordSize < (parseHeader header).len)) = some true)) = some true := by
    decide +kernel
  obtain ⟨wal, hlog, hobs⟩ := Option.map_eq_some_iff.mp hobs
  obtain ⟨hlo, hhi, hc, hnone, hlen⟩ := of_decide_eq_true hobs
  obtain ⟨header, hhdr, hlen⟩ := Option.map_eq_some_iff.mp hlen
  have hlen := of_decide_eq_true hlen
  have hsound := (sound_freshLog hlog).1
  refine ⟨wal, hlog, (iterFrom_error_iff hsound.bounded hsound.max_lt
    (SegmentedStore.SameFiles.refl hsound.ready) hc hlo hhi).mpr ⟨?_, hnone⟩⟩
  rintro (hshort | ⟨header', hhdr', hle, -⟩)
  · rw [hhdr] at hshort
    cases hshort
  · rw [hhdr] at hhdr'
    cases hhdr'
    omega

/-- From within a payload that is the frame of an empty record a record is yielded, and from
the last bytes of a log nothing. -/
theorem iterFrom_misses_corruption :
    ∃ wal0 wal wal1 : Wal MemStore,
      (Wal.withStoreAndConfig WalConfig.new (⟨[], by decide⟩ : MemStore)).1 = .ok wal0 ∧
      wal0.append (frame []) = (.ok 0, wal) ∧ wal0.append [1] = (.ok 0, wal1) ∧
      ((wal.iterFrom 8).collect wal).1 = .ok [.ok { lsn := 8, data := [] }] ∧
      ((wal1.iterFrom 4).collect wal1).1 = .ok [] := by
  have hobs : ((Wal.withStoreAndConfig WalConfig.new
        (⟨[], by decide⟩ : MemStore)).1.toOption.bind fun wal0 =>
      (wal0.append (frame [])).1.toOption.bind fun lsn =>
        (wal0.append [1]).1.toOption.map fun lsn1 =>
          let wal := (wal0.append (frame [])).2
          let wal1 := (wal0.append [1]).2
          (lsn, lsn1,
            decide (((wal.iterFrom 8).collect wal).1 = .ok [.ok { lsn := 8, data := [] }]),
            decide (((wal1.iterFrom 4).collect wal1).1 = .ok []))) =
      some (0, 0, true, true) := by decide +kernel
  obtain ⟨wal0, hopen, hobs⟩ := Option.bind_eq_some_iff.mp hobs
  obtain ⟨lsn, happ, hobs⟩ := Option.bind_eq_some_iff.mp hobs
  obtain ⟨lsn1, happ1, hobs⟩ := Option.map_eq_some_iff.mp hobs
  simp only [Prod.mk.injEq, decide_eq_true_eq] at hobs
  obtain ⟨rfl, rfl, hiter, hiter1⟩ := hobs
  exact ⟨wal0, _, _, Act.eq_ok_of_toOption hopen, Prod.ext (Act.eq_ok_of_toOption happ) rfl,
    Prod.ext (Act.eq_ok_of_toOption happ1) rfl, hiter, hiter1⟩

end Wal
end WalDb
