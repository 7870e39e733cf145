/-
What a crash in the middle of concurrent appends leaves in memory, and what an open
makes of it.

Appends reserve ranges that tile the log and write them in any order, so a crash finds
any subset of the ranges complete.  A range that is missing holds zeros where a later one
was written, and nothing otherwise; the last one may hold part of its frame.  A header of
zeros does not verify and a part of a frame is too short, so the scan of an open stops
at the first missing range.
-/
import WalDb.Sequential
import WalDb.Strict.Open

namespace WalDb

open Lib Record

/-- A range that an append reserved, and whether its write completed. -/
structure Reservation where
  payload : List UInt8
  completed : Bool

namespace Reservation

/-- The bytes the ranges hold after the crash. -/
def bytes : List Reservation → List UInt8
  | [] => []
  | r :: rs =>
      if r.completed then frame r.payload ++ bytes rs
      else if rs.any completed then List.replicate (framedLen r.payload.length) 0 ++ bytes rs
      else []

/-- The payloads of the ranges before the first missing one. -/
def kept (rs : List Reservation) : List (List UInt8) := (rs.takeWhile completed).map payload

/-- The ranges from the first missing one on. -/
def missing (rs : List Reservation) : List Reservation := rs.dropWhile completed

/-- Where the first missing range starts, or the last range ends. -/
def gap (rs : List Reservation) : Nat := (frames (kept rs)).length

/-- Some range after a missing one has been written. -/
def Overtaken (rs : List Reservation) : Prop := (missing rs).any completed = true

instance (rs : List Reservation) : Decidable (Overtaken rs) :=
  inferInstanceAs (Decidable (_ = true))

/-- What the first missing range may hold besides: a proper initial part of its frame, if
nothing after it was written. -/
def Torn (rs : List Reservation) (torn : List UInt8) : Prop :=
  torn = [] ∨ ∃ r rest, missing rs = r :: rest ∧ ¬ Overtaken rs ∧ torn <+: frame r.payload ∧
    torn.length < framedLen r.payload.length

/-! ## The writes behind an image -/

/-- The writes that completed, in the order of their ranges. -/
def landed (off : Nat) : List Reservation → List (Nat × List UInt8)
  | [] => []
  | r :: rs =>
      if r.completed then (off, frame r.payload) :: landed (off + framedLen r.payload.length) rs
      else landed (off + framedLen r.payload.length) rs

theorem bytes_of_none {rs : List Reservation} (h : rs.any completed = false) : bytes rs = [] := by
  cases rs with
  | nil => rfl
  | cons r rs =>
      simp only [List.any_cons, Bool.or_eq_false_iff] at h
      simp [bytes, h.1, h.2]

theorem overwriteAll_landed {data : List UInt8} {off : Nat} (hle : data.length ≤ off)
    (rs : List Reservation) : overwriteAll data (landed off rs) =
      if rs.any completed then data ++ List.replicate (off - data.length) 0 ++ bytes rs
      else data := by
  induction rs generalizing data off with
  | nil => rfl
  | cons r rs ih =>
      cases hr : r.completed with
      | true =>
          have hlen : (data ++ List.replicate (off - data.length) 0 ++ frame r.payload).length =
              off + framedLen r.payload.length := by
            simp only [List.length_append, List.length_replicate, frame_length]
            omega
          simp only [landed, hr, if_true, overwriteAll, List.foldl_cons, overwrite_past hle,
            List.any_cons, Bool.true_or]
          rw [← overwriteAll, ih (Nat.le_of_eq hlen), hlen, Nat.sub_self]
          cases hany : rs.any completed with
          | true => simp [bytes, hr]
          | false => simp [bytes, hr, bytes_of_none hany]
      | false =>
          simp only [landed, hr, Bool.false_eq_true, if_false, List.any_cons, Bool.false_or]
          rw [ih (Nat.le_trans hle (Nat.le_add_right _ _))]
          cases hany : rs.any completed with
          | false => rfl
          | true =>
              have hsplit : off + framedLen r.payload.length - data.length =
                  (off - data.length) + framedLen r.payload.length := by omega
              rw [hsplit, List.replicate_add]
              simp only [bytes, hr, hany, Bool.false_eq_true, if_false, if_true, List.append_assoc]

theorem mem_landed {off : Nat} {rs : List Reservation} {w : Nat × List UInt8}
    (h : w ∈ landed off rs) : off ≤ w.1 ∧ w.2 ≠ [] := by
  induction rs generalizing off with
  | nil => cases h
  | cons r rs ih =>
      have hrest : w ∈ landed (off + framedLen r.payload.length) rs → off ≤ w.1 ∧ w.2 ≠ [] := by
        intro hmem
        have := ih hmem
        exact ⟨by omega, this.2⟩
      rw [landed] at h
      split at h
      · rcases List.mem_cons.mp h with rfl | h
        · refine ⟨Nat.le_refl _, List.ne_nil_of_length_pos ?_⟩
          rw [frame_length, framedLen, headerLen]
          omega
        · exact hrest h
      · exact hrest h

/-- The writes are to ranges one after the other. -/
theorem landed_pairwise (off : Nat) (rs : List Reservation) :
    (landed off rs).Pairwise fun v w => v.1 + v.2.length ≤ w.1 := by
  induction rs generalizing off with
  | nil => exact List.Pairwise.nil
  | cons r rs ih =>
      rw [landed]
      split
      · refine List.pairwise_cons.mpr ⟨fun w hw => ?_, ih _⟩
        rw [frame_length]
        exact (mem_landed hw).1
      · exact ih _

/-- The completed writes give the same bytes in whatever order they reach the store. -/
theorem overwriteAll_bytes {rs : List Reservation} {ws : List (Nat × List UInt8)}
    (h : ws.Perm (landed 0 rs)) : overwriteAll [] ws = bytes rs := by
  rw [← overwriteAll_perm h.symm (fun w hw => (mem_landed hw).2) (landed_pairwise 0 rs),
    overwriteAll_landed (Nat.le_refl 0)]
  cases hany : rs.any completed with
  | true => simp
  | false => simp [bytes_of_none hany]

end Reservation

/-- Every write of `ws` returns Ok, one after the other. -/
def MemStore.writeAll (s : MemStore) : List (Nat × List UInt8) → Option MemStore
  | [] => some s
  | w :: ws => (Act.final (WalStore.writeAt w.1 w.2) s).bind fun s' => s'.writeAll ws

theorem MemStore.writeAll_data {s s' : MemStore} {ws : List (Nat × List UInt8)}
    (h : s.writeAll ws = some s') : s'.data = overwriteAll s.data ws := by
  induction ws generalizing s with
  | nil =>
      cases h
      rfl
  | cons w ws ih =>
      obtain ⟨t, ht, h⟩ := Option.bind_eq_some_iff.mp h
      obtain ⟨_, ht⟩ := Act.final_eq_some ht
      rw [ih h, MemStore.writeAt_data ht]
      rfl

/-- Appends whose writes completed in any order leave the bytes of their ranges. -/
theorem MemStore.writeAll_bytes {rs : List Reservation} {ws : List (Nat × List UInt8)}
    {s s' : MemStore} (hs : s.data = []) (h : ws.Perm (Reservation.landed 0 rs))
    (hrun : s.writeAll ws = some s') : s'.data = Reservation.bytes rs := by
  rw [MemStore.writeAll_data hrun, hs, Reservation.overwriteAll_bytes h]

/-! ## The first missing range -/

/-- No record starts with a header of zeros: its length would be zero, and the checksum of
no payload is not. -/
theorem recordAt_zeros (m : Nat) {n : Nat} (hn : headerLen ≤ n) (rest : List UInt8) :
    recordAt (Image.ofList (List.replicate n 0 ++ rest)) m 0 = none := by
  have hread : (Image.ofList (List.replicate n (0 : UInt8) ++ rest)).read 0 headerLen =
      some (List.replicate headerLen 0) := by
    rw [Image.read_ofList (by simp; omega), List.drop_zero, List.take_append_of_le_length
      (by simpa using hn), List.take_replicate, Nat.min_eq_left hn]
  have hparse : parseHeader (List.replicate headerLen 0) = { crc := 0, len := 0 } := by decide
  have hverify : verify (List.replicate headerLen 0) [] 0#32 = false := by
    decide +kernel
  simp [recordAt, hread, hparse, hverify]

/-- No record starts where only a part of a frame is left. -/
theorem recordAt_torn {m : Nat} {p torn : List UInt8} (hm : m < 2 ^ 32) (hp : p.length ≤ m)
    (hpre : torn <+: frame p) (hlt : torn.length < framedLen p.length) :
    recordAt (Image.ofList torn) m 0 = none := by
  cases hrec : recordAt (Image.ofList torn) m 0 with
  | none => rfl
  | some q =>
      obtain ⟨hq, hread⟩ := (recordAt_eq_some_iff hm).mp hrec
      have hle : framedLen q.length ≤ torn.length := by
        by_contra hgt
        rw [Image.read_ofList_eq_none (by omega) (by omega)] at hread
        cases hread
      rw [Image.read_ofList (by omega), List.drop_zero, Option.some.injEq] at hread
      -- The two frames begin alike, so they are equally long.
      have hpre' : frame q <+: frame p := by
        rw [← hread]
        exact (List.take_prefix _ _).trans hpre
      have hheader : header q = header p := by
        have htake := List.prefix_iff_eq_take.mp hpre'
        rw [frame_eq_header_append p, frame_eq_header_append q] at htake
        have := congrArg (List.take headerLen) htake
        simpa [List.take_append, List.take_of_length_le] using this
      have hlenq : (parseHeader (header q)).len = q.length := by
        rw [parseHeader_header (by omega)]
      have hlenp : (parseHeader (header p)).len = p.length := by
        rw [parseHeader_header (by omega)]
      rw [hheader, hlenp] at hlenq
      rw [← hlenq] at hle
      omega

theorem recordAt_append (m : Nat) (pre rest : List UInt8) :
    recordAt (Image.ofList (pre ++ rest)) m pre.length = recordAt (Image.ofList rest) m 0 := by
  refine recordAt_shift fun i => ?_
  simp only [Image.ofList, Nat.zero_add]
  rw [List.getElem?_append_right (Nat.le_add_right _ _), Nat.add_sub_cancel_left]

namespace Reservation

theorem bytes_eq (rs : List Reservation) : bytes rs = frames (kept rs) ++ bytes (missing rs) := by
  induction rs with
  | nil => rfl
  | cons r rs ih =>
      cases hr : r.completed with
      | true => simp_all [bytes, kept, missing]
      | false => simp [kept, missing, hr]

theorem kept_mem {rs : List Reservation} {p : List UInt8} (h : p ∈ kept rs) :
    ∃ r ∈ rs, r.payload = p := by
  obtain ⟨r, hr, rfl⟩ := List.mem_map.mp h
  exact ⟨r, (List.takeWhile_prefix _).subset hr, rfl⟩

/-- The first of the missing ranges is missing. -/
theorem missing_head {rs rest : List Reservation} {r : Reservation}
    (h : missing rs = r :: rest) : r.completed = false ∧ r ∈ rs := by
  induction rs with
  | nil => cases h
  | cons q rs ih =>
      rw [missing, List.dropWhile_cons] at h
      split at h
      · have := ih h
        exact ⟨this.1, List.mem_cons_of_mem _ this.2⟩
      · rename_i hq
        cases h
        exact ⟨by simpa using hq, List.mem_cons_self⟩

/-- A completed range is a record in the image. -/
theorem exists_frame {rs : List Reservation} (h : rs.any completed = true) :
    ∃ r ∈ rs, ∃ pre post, bytes rs = pre ++ frame r.payload ++ post := by
  induction rs with
  | nil => cases h
  | cons r rs ih =>
      cases hr : r.completed with
      | true => exact ⟨r, List.mem_cons_self, [], bytes rs, by simp [bytes, hr]⟩
      | false =>
          have hany : rs.any completed = true := by simpa [hr] using h
          obtain ⟨q, hq, pre, post, heq⟩ := ih hany
          exact ⟨q, List.mem_cons_of_mem _ hq, List.replicate (framedLen r.payload.length) 0 ++ pre,
            post, by simp [bytes, hr, hany, heq]⟩

theorem overtaken_cons {rs rest : List Reservation} {r : Reservation}
    (h : missing rs = r :: rest) : Overtaken rs ↔ rest.any completed = true := by
  simp [Overtaken, h, (missing_head h).1]

/-- No record starts at the first missing range. -/
theorem recordAt_gap {m : Nat} (hm : m < 2 ^ 32) {rs : List Reservation}
    (hsmall : ∀ r ∈ rs, r.payload.length ≤ m) {torn : List UInt8} (htorn : Torn rs torn) :
    recordAt (Image.ofList (bytes rs ++ torn)) m (gap rs) = none := by
  rw [bytes_eq, List.append_assoc, gap, recordAt_append]
  cases hmiss : missing rs with
  | nil =>
      rcases htorn with rfl | ⟨r, rest, hcons, -⟩
      · exact recordAt_none_of_past rfl
      · rw [hmiss] at hcons
        cases hcons
  | cons r rest =>
      obtain ⟨hr, hmem⟩ := missing_head hmiss
      by_cases hany : rest.any completed = true
      · have hover := (overtaken_cons hmiss).mpr hany
        simp only [bytes, hr, hany, Bool.false_eq_true, if_false, if_true, List.append_assoc]
        exact recordAt_zeros m (by rw [framedLen]; omega) _
      · simp only [bytes, hr, hany, Bool.false_eq_true, if_false, List.nil_append]
        rcases htorn with rfl | ⟨q, rest', hcons, -, hpre, hlt⟩
        · exact recordAt_none_of_past rfl
        · rw [hmiss] at hcons
          cases hcons
          exact recordAt_torn hm (hsmall r hmem) hpre hlt

/-- The records of a crash image are those before the first missing range. -/
theorem payloads_image {m : Nat} (hm : m < 2 ^ 32) {rs : List Reservation}
    (hsmall : ∀ r ∈ rs, r.payload.length ≤ m) {torn data : List UInt8} (htorn : Torn rs torn)
    (hdata : data = bytes rs ++ torn) :
    payloads (Image.ofList data) m data.length 0 = kept rs := by
  have hintact : Intact (Image.ofList data) m 0 (kept rs) := by
    refine (beginsWith_drop_iff (Nat.zero_le _)).mp ⟨fun p hp => ?_, ?_⟩
    · obtain ⟨r, hr, rfl⟩ := kept_mem hp
      exact hsmall r hr
    · rw [hdata, bytes_eq, List.append_assoc]
      exact List.prefix_append _ _
  have hpast : ∀ o, data.length ≤ o → Image.ofList data o = none :=
    fun o ho => List.getElem?_eq_none ho
  refine hintact.payloads_of_stop hm hpast ?_
  rw [Nat.zero_add, hdata]
  exact recordAt_gap hm hsmall htorn

/-- A range written after a missing one is a record past the gap. -/
theorem recordAt_overtaken {m : Nat} (hm : m < 2 ^ 32) {rs : List Reservation}
    (hsmall : ∀ r ∈ rs, r.payload.length ≤ m) (hover : Overtaken rs) :
    ∃ a, gap rs + 1 ≤ a ∧ a + headerLen ≤ (bytes rs).length ∧
      (recordAt (Image.ofList (bytes rs)) m a).isSome = true := by
  cases hmiss : missing rs with
  | nil => simp [Overtaken, hmiss] at hover
  | cons r rest =>
      obtain ⟨hr, -⟩ := missing_head hmiss
      have hany := (overtaken_cons hmiss).mp hover
      obtain ⟨q, hq, pre, post, heq⟩ := exists_frame hany
      have hbytes : bytes rs = (frames (kept rs) ++ List.replicate (framedLen r.payload.length) 0 ++
          pre) ++ (frame q.payload ++ post) := by
        rw [bytes_eq, hmiss]
        simp [bytes, hr, hany, heq]
      have hmem : q ∈ rs := (List.dropWhile_suffix _).subset
        (show q ∈ missing rs by rw [hmiss]; exact List.mem_cons_of_mem _ hq)
      have hrec : recordAt (Image.ofList (frame q.payload ++ post)) m 0 = some q.payload := by
        refine (recordAt_eq_some_iff hm).mpr ⟨hsmall q hmem, ?_⟩
        rw [Image.read_ofList (by simp), List.drop_zero]
        simp
      refine ⟨(frames (kept rs) ++ List.replicate (framedLen r.payload.length) 0 ++ pre).length,
        ?_, ?_, ?_⟩
      · simp [gap, framedLen, headerLen]
        omega
      · rw [hbytes]
        simp [framedLen]
        omega
      · rw [hbytes, recordAt_append, hrec]
        rfl

/-! ## Opening the image -/

/-- Opening a crash image recovers the records before the first missing range, and the next
append goes where that range started.  Where no range is torn a strict open refuses exactly
if a range after a missing one was written. -/
theorem image_recovers_prefix (config : WalConfig) (rs : List Reservation) (torn : List UInt8)
    (store : MemStore) (hsmall : ∀ r ∈ rs, r.payload.length ≤ config.maxRecordSize)
    (htorn : Torn rs torn) (hdata : store.data = bytes rs ++ torn) :
    (∃ wal, Wal.withStoreAndConfig (config.withOpenPolicy .truncateTail) store =
        (.ok wal, wal.store) ∧
      (wal.iter.collect wal).1 = .ok ((Wal.recordsFrom 0 (kept rs)).map .ok) ∧
      ∀ record : List UInt8, record.length ≤ config.maxRecordSize →
        gap rs + framedLen record.length < 2 ^ 63 →
        ∃ wal', wal.append record = (.ok (gap rs), wal')) ∧
    (torn = [] →
      ((∃ reason, (Wal.withStoreAndConfig (config.withOpenPolicy .strict) store).1 =
        .error (.err (.corruption (gap rs) reason))) ↔ Overtaken rs) ∧
      (¬ Overtaken rs →
        ∃ wal, (Wal.withStoreAndConfig (config.withOpenPolicy .strict) store).1 = .ok wal)) := by
  have hm := config.maxRecordSize_lt
  have hps := payloads_image hm hsmall htorn hdata
  have hend : logEnd (Image.ofList store.data) config.maxRecordSize store.data.length 0 = gap rs := by
    rw [logEnd, hps, Nat.zero_add, gap]
  have hpast : ∀ o, store.data.length ≤ o → Image.ofList store.data o = none :=
    fun o ho => List.getElem?_eq_none ho
  refine ⟨?_, fun hnil => ?_⟩
  · obtain ⟨ps, wal, -, huniq, hopen, -, -, -, -, -, -, hiter, -⟩ :=
      MemStore.flat.recoversPrefix (config.withOpenPolicy .truncateTail) rfl store
    have hkept : kept rs = ps := by
      rw [← hps]
      exact huniq _ (isLongest_payloads hm (Nat.zero_le _)).1
    obtain ⟨hbytes, -, htail, -, hcommit, hmax⟩ := MemStore.flat.open_ok hopen
    refine ⟨wal, hopen, by rw [hkept]; exact hiter, fun record hlen hfit => ?_⟩
    have hbytes : wal.store.data = store.data.take (gap rs) := by
      rw [← hend]
      exact hbytes
    have htail : wal.tail = gap rs := htail.trans hend
    have hle := logEnd_le hm hpast (Nat.zero_le _)
    have hlength : wal.store.data.length = wal.tail := by
      rw [hbytes, List.length_take, htail, ← hend]
      exact Nat.min_eq_left hle
    obtain ⟨s', hwrite⟩ := MemStore.writeAt_end (frame record) hlength
      (by rw [htail, frame_length]; exact hfit)
    have hsettled : wal.Settled := Wal.settled_of_new (by rw [hcommit, htail, ← hend]; rfl)
    have hrun := Wal.append_ok hsettled (by rw [hmax]; exact hlen) (by rw [htail]; omega) hwrite
    rw [htail] at hrun
    exact ⟨_, hrun⟩
  · rw [hnil, List.append_nil] at hdata
    have V := MemStore.flat.view store
    by_cases hover : Overtaken rs
    · -- The record past the gap makes the open refuse.
      obtain ⟨a, hgt, hroom, hsome⟩ := recordAt_overtaken hm hsmall hover
      rw [← hdata] at hroom hsome
      obtain ⟨s1, hscan, -⟩ := scan_eq V hm 0 rfl
      rw [hend] at hscan
      obtain ⟨t, s2, -, hans, -, hrefuse⟩ := Strict.recover_strict V config rfl
        (by rw [hscan]) (show gap rs < store.data.length by omega)
      have ht : t ≠ .torn := fun ht => (hans.torn ht).1 (Or.inr ⟨a, hgt, hroom, hsome⟩)
      obtain ⟨reason, hrec⟩ := hrefuse ht
      refine ⟨iff_of_true ⟨reason, ?_⟩ hover, fun hno => absurd hover hno⟩
      rw [Wal.withStoreAndConfig, Act.bind_ok (MemStore.flat.head_eq store), Act.bind_error hrec]
    · have hwhole : gap rs = store.data.length := by
        rw [Overtaken, Bool.not_eq_true] at hover
        rw [hdata, bytes_eq, bytes_of_none hover, List.append_nil, gap]
      rw [hwhole] at hend
      obtain ⟨s1, -, hopen⟩ := open_whole V.serves (config.withOpenPolicy .strict)
        (MemStore.flat.head_eq store) rfl rfl hend
      rw [hopen]
      refine ⟨iff_of_false ?_ hover, fun _ => ⟨_, rfl⟩⟩
      rintro ⟨reason, h⟩
      cases h

/-- Of three ranges the second is missing: the first record is recovered, the next append
goes where the second one was, and a strict open refuses because of the third. -/
theorem image_recovers_prefix_overtaken :
    let rs := [⟨[1], true⟩, ⟨[2, 3], false⟩, ⟨[4], true⟩]
    let store : MemStore := ⟨bytes rs, by decide +kernel⟩
    (∃ wal wal', Wal.withStoreAndConfig (WalConfig.new.withOpenPolicy .truncateTail) store =
        (.ok wal, wal.store) ∧
      (wal.iter.collect wal).1 = .ok [.ok ⟨0, [1]⟩] ∧ wal.append [5] = (.ok 9, wal')) ∧
    ∃ reason, (Wal.withStoreAndConfig (WalConfig.new.withOpenPolicy .strict) store).1 =
      .error (.err (.corruption 9 reason)) := by
  intro rs store
  obtain ⟨⟨wal, hopen, hiter, happend⟩, hstrict⟩ := image_recovers_prefix WalConfig.new rs
    [] store (by decide +kernel) (Or.inl rfl) (by simp [store])
  obtain ⟨wal', hrun⟩ := happend [5] (by decide +kernel) (by decide +kernel)
  exact ⟨⟨wal, wal', hopen, hiter, hrun⟩, (hstrict rfl).1.mpr (by decide)⟩

end Reservation

end WalDb
