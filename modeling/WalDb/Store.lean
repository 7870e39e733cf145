/-
Storage backends: the `WalStore` trait and the in-memory store (`store.rs`).

Every operation is an action on the store, reads included: a backend may open
file handles while it reads.  `readAt` returns the bytes it read, so the count
the source returns is their number.

`Reads img P` is the read half of the trait's contract, relative to an image of
the store: in every state satisfying `P` a range the image has is read whole, a
range it lacks is read short, and the state still satisfies `P` afterwards.  The
scanners below are proved against it, once for all backends.  `Probes reach img P` is
the same for a backend that may fail a read which is not in `reach`: a file has no offset
past the largest signed number.
-/
import WalDb.Basic
import WalDb.Lib.Ends
import WalDb.Lib.Image
import WalDb.Lib.Overwrite

namespace WalDb

open Lib

/-- A byte-addressable, append-only store with an explicit durability barrier. -/
class WalStore (S : Type) where
  writeAt : Nat → List UInt8 → Act S Fault Unit
  readAt : Nat → Nat → Act S Fault (List UInt8)
  truncate : Nat → Act S Fault Unit
  sync : Act S Fault Unit
  len : Act S Fault Nat
  head : Act S Fault Nat := pure 0
  truncateBefore : Nat → Act S Fault Nat := fun _ => head

/-- Reading in any state that satisfies `P` returns what `img` holds. -/
structure Reads {S : Type} [WalStore S] (img : Image UInt8) (P : S → Prop) : Prop where
  full : ∀ {s : S} {off n : Nat} {bs : List UInt8}, P s → img.read off n = some bs →
    ∃ s', WalStore.readAt off n s = (.ok bs, s') ∧ P s'
  short : ∀ {s : S} {off n : Nat}, P s → off + n < 2 ^ 64 → img.read off n = none →
    ∃ bs s', WalStore.readAt off n s = (.ok bs, s') ∧ bs.length < n ∧ P s'
  /-- A range that runs past the last offset is read as well, but nothing is said
  about what comes back.  Only what does not start at an offset may fail. -/
  past : ∀ {s : S} {off n : Nat}, P s → 2 ^ 64 ≤ off + n →
    (WalStore.readAt off n).Ends s (fun _ s' => P s') fun _ s' => P s' ∧ ¬ off < 2 ^ 64

/-- What a store holds is read; what it lacks is read short, or fails if it is not in
`reach`. -/
structure Probes {S : Type} [WalStore S] (reach : Nat → Nat → Prop) (img : Image UInt8)
    (P : S → Prop) : Prop where
  full : ∀ {s : S} {off n : Nat} {bs : List UInt8}, P s → img.read off n = some bs →
    ∃ s', WalStore.readAt off n s = (.ok bs, s') ∧ P s'
  missing : ∀ {s : S} {off n : Nat}, P s → img.read off n = none →
    (WalStore.readAt off n).Ends s (fun bs s' => (off + n < 2 ^ 64 → bs.length < n) ∧ P s')
      fun _ s' => P s' ∧ ¬ reach off n

theorem Reads.probes {S : Type} [WalStore S] {img : Image UInt8} {P : S → Prop} (R : Reads img P) :
    Probes (fun off _ => off < 2 ^ 64) img P where
  full := R.full
  missing {s off n} hP hnone := by
    by_cases hfit : off + n < 2 ^ 64
    · obtain ⟨bs, s', hrun, hshort, hP'⟩ := R.short hP hfit hnone
      exact Act.ends_of_ok hrun ⟨fun _ => hshort, hP'⟩
    · exact (R.past hP (Nat.not_lt.mp hfit)).mono (fun _ _ h => ⟨fun hlt => absurd hlt hfit, h⟩)
        fun _ _ h => h

/-- An error after one of the reads that are asked for was not in `reach`. -/
def Refused {σ : Type} (asks reach : Nat → Nat → Prop) (P : σ → Prop) (_ : Fault) (s : σ) : Prop :=
  P s ∧ ∃ off n, asks off n ∧ ¬ reach off n

theorem Refused.mono {σ : Type} {asks asks' reach : Nat → Nat → Prop} {P : σ → Prop} {fault : Fault}
    {s : σ} (hasks : ∀ off n, asks off n → asks' off n) (h : Refused asks reach P fault s) :
    Refused asks' reach P fault s :=
  ⟨h.1, h.2.imp fun off => Exists.imp fun n h => ⟨hasks off n h.1, h.2⟩⟩

/-- Where all that is asked for is in reach no read fails. -/
theorem Lib.Act.Ends.in_reach {S α : Type} {x : Act S Fault α} {s : S} {Q : α → S → Prop}
    {asks reach : Nat → Nat → Prop} {P : S → Prop} (h : x.Ends s Q (Refused asks reach P))
    (hreach : ∀ off n, asks off n → reach off n) : ∃ a s', x s = (.ok a, s') ∧ Q a s' := by
  rcases h.cases with hok | ⟨_, _, _, _, off, n, hasks, hno⟩
  · exact hok
  · exact absurd (hreach off n hasks) hno

/-- A view of a store: its image, its length, and states that agree on both. -/
structure View {S : Type} [WalStore S] (img : Image UInt8) (size : Nat) (P : S → Prop) : Prop
    extends Reads img P where
  len_eq : ∀ {s : S}, P s → WalStore.len s = (.ok size, s)
  past_end : ∀ {o : Nat}, size ≤ o → img o = none
  size_lt : size < 2 ^ 64

/-- A store that holds the bytes of `img`, all below `size`, and may be changing
anywhere else. -/
structure Serves {S : Type} [WalStore S] (img : Image UInt8) (size : Nat) (P : S → Prop) :
    Prop where
  full : ∀ {s : S} {off n : Nat} {bs : List UInt8}, P s → img.read off n = some bs →
    ∃ s', WalStore.readAt off n s = (.ok bs, s') ∧ P s'
  past_end : ∀ {o : Nat}, size ≤ o → img o = none
  size_lt : size < 2 ^ 64

/-- A view of a store that may fail reads which are not in `reach`. -/
structure Sight {S : Type} [WalStore S] (reach : Nat → Nat → Prop) (img : Image UInt8) (size : Nat)
    (P : S → Prop) : Prop extends Probes reach img P where
  within : ∀ {off n : Nat}, off + n ≤ size → reach off n
  len_eq : ∀ {s : S}, P s → WalStore.len s = (.ok size, s)
  past_end : ∀ {o : Nat}, size ≤ o → img o = none
  size_lt : size < 2 ^ 64

theorem View.sight {S : Type} [WalStore S] {img : Image UInt8} {size : Nat} {P : S → Prop}
    (V : View img size P) : Sight (fun off _ => off < 2 ^ 64) img size P where
  toProbes := V.toReads.probes
  within := by
    intro off n hle
    have hlt := V.size_lt
    omega
  len_eq := V.len_eq
  past_end := V.past_end
  size_lt := V.size_lt

theorem Sight.serves {S : Type} [WalStore S] {reach : Nat → Nat → Prop} {img : Image UInt8} {size : Nat}
    {P : S → Prop} (V : Sight reach img size P) : Serves img size P :=
  ⟨V.full, V.past_end, V.size_lt⟩

theorem View.serves {S : Type} [WalStore S] {img : Image UInt8} {size : Nat} {P : S → Prop}
    (V : View img size P) : Serves img size P := ⟨V.full, V.past_end, V.size_lt⟩

/-- A view that is read short past the last offset as well. -/
structure Bounded {S : Type} [WalStore S] (img : Image UInt8) (size : Nat) (P : S → Prop) : Prop
    extends View img size P where
  past_short : ∀ {s : S} {off n : Nat}, P s → off < 2 ^ 64 → 2 ^ 64 ≤ off + n →
    ∃ bs s', WalStore.readAt off n s = (.ok bs, s') ∧ bs.length < n ∧ P s'

/-- A range with a byte missing is read short. -/
theorem Bounded.missing {S : Type} [WalStore S] {img : Image UInt8} {size : Nat} {P : S → Prop}
    (B : Bounded img size P) {s : S} (hP : P s) {off n : Nat} (hoff : off < 2 ^ 64)
    (h : img.read off n = none) :
    ∃ bs s', WalStore.readAt off n s = (.ok bs, s') ∧ bs.length < n ∧ P s' := by
  by_cases hpast : 2 ^ 64 ≤ off + n
  · exact B.past_short hP hoff hpast
  · exact B.short hP (Nat.not_le.mp hpast) h

/-! ## Bytes in memory -/

/-- An in-memory store.  A `Vec` never holds more than `isize::MAX` bytes. -/
structure MemStore where
  data : List UInt8
  data_lt : data.length < 2 ^ 63

namespace MemStore

def writeAt (offset : Nat) (bytes : List UInt8) : Act MemStore Fault Unit := fun s =>
  if 2 ^ 64 ≤ offset + bytes.length then
    (.error (.err (.io "writing to memory" (.other "write overflows usize"))), s)
  else
    let data := if s.data.length < offset + bytes.length then
        s.data ++ List.replicate (offset + bytes.length - s.data.length) 0
      else s.data
    -- `resize` past `isize::MAX` panics in the allocator.
    if h : (data.take offset ++ bytes ++ data.drop (offset + bytes.length)).length < 2 ^ 63 then
      (.ok (), ⟨data.take offset ++ bytes ++ data.drop (offset + bytes.length), h⟩)
    else (.error (.panics "capacity overflow"), s)

def readAt (offset n : Nat) : Act MemStore Fault (List UInt8) := fun s =>
  if offset < s.data.length then
    let available := s.data.drop offset
    (.ok (available.take (min available.length n)), s)
  else (.ok [], s)

def truncate (len : Nat) : Act MemStore Fault Unit := fun s =>
  (.ok (), ⟨s.data.take len, by
    have h := s.data_lt
    rw [List.length_take]
    omega⟩)

instance : WalStore MemStore where
  writeAt := writeAt
  readAt := readAt
  truncate := truncate
  sync := pure ()
  len := fun s => (.ok s.data.length, s)

/-- A read returns the slice that is there. -/
theorem readAt_eq (offset n : Nat) (s : MemStore) :
    WalStore.readAt offset n s = (.ok ((s.data.drop offset).take n), s) := by
  show readAt offset n s = _
  unfold readAt
  by_cases h : offset < s.data.length
  · simp [h, List.take_eq_take_min, Nat.min_comm]
  · simp [h, List.drop_eq_nil_of_le (by omega : s.data.length ≤ offset)]

/-- A write to memory that returns Ok has put its bytes there. -/
theorem writeAt_data {offset : Nat} {bytes : List UInt8} {s s' : MemStore}
    (h : WalStore.writeAt offset bytes s = (.ok (), s')) :
    s'.data = overwrite s.data offset bytes := by
  have h : writeAt offset bytes s = (.ok (), s') := h
  unfold writeAt at h
  by_cases hbig : 2 ^ 64 ≤ offset + bytes.length
  · rw [if_pos hbig] at h
    cases h
  rw [if_neg hbig] at h
  by_cases hlt : s.data.length < offset + bytes.length
  · simp only [if_pos hlt] at h
    split at h
    · cases h
      have hmin : min (offset - s.data.length) (offset + bytes.length - s.data.length) =
          offset - s.data.length := by omega
      simp [overwrite, List.take_append, List.drop_append, hmin,
        List.drop_eq_nil_of_le (Nat.le_of_lt hlt)]
    · cases h
  · simp only [if_neg hlt] at h
    split at h
    · cases h
      simp [overwrite, Nat.sub_eq_zero_of_le (show offset ≤ s.data.length by omega)]
    · cases h

/-- A write at the end succeeds as long as memory can hold it. -/
theorem writeAt_end {offset : Nat} (bytes : List UInt8) {s : MemStore}
    (hend : s.data.length = offset) (hfit : offset + bytes.length < 2 ^ 63) :
    ∃ s', WalStore.writeAt offset bytes s = (.ok (), s') := by
  show ∃ s', writeAt offset bytes s = (.ok (), s')
  unfold writeAt
  rw [if_neg (by omega)]
  dsimp only
  rw [dif_pos]
  · exact ⟨_, rfl⟩
  · split <;> simp <;> omega

end MemStore

/-- A flat store that has dropped its prefix: one run of bytes with a recorded
head.  It is as long as an offset can say.  Truncating below the head takes the
head along. -/
structure HeadStore where
  data : List UInt8
  headAt : Nat
  data_lt : data.length < 2 ^ 64
  headAt_le : headAt ≤ data.length

namespace HeadStore

def writeAt (offset : Nat) (bytes : List UInt8) : Act HeadStore Fault Unit := fun s =>
  if h : max s.data.length (offset + bytes.length) < 2 ^ 64 then
    (.ok (),
      { data := overwrite s.data offset bytes
        headAt := s.headAt
        data_lt := by rw [length_overwrite]; exact h
        headAt_le := by have := s.headAt_le; rw [length_overwrite]; omega })
  else (.error (.err (.io "writing" (.other "write overflows u64"))), s)

def readAt (offset n : Nat) : Act HeadStore Fault (List UInt8) := fun s =>
  (.ok ((s.data.drop offset).take n), s)

def truncate (len : Nat) : Act HeadStore Fault Unit := fun s =>
  (.ok (),
    { data := s.data.take len
      headAt := min s.headAt len
      data_lt := by have := s.data_lt; rw [List.length_take]; omega
      headAt_le := by have := s.headAt_le; rw [List.length_take]; omega })

instance : WalStore HeadStore where
  writeAt := writeAt
  readAt := readAt
  truncate := truncate
  sync := pure ()
  len := fun s => (.ok s.data.length, s)
  head := fun s => (.ok s.headAt, s)

end HeadStore

/-- A flat store some of whose bytes cannot be read back, such as one with a
missing part.  A read stops at the first unreadable byte. -/
structure SparseStore where
  data : List (Option UInt8)
  data_lt : data.length < 2 ^ 63

namespace SparseStore

/-- The bytes before the first unreadable one. -/
def readable : List (Option UInt8) → List UInt8
  | some b :: xs => b :: readable xs
  | _ => []

def writeAt (offset : Nat) (bytes : List UInt8) : Act SparseStore Fault Unit := fun s =>
  let data := s.data ++ List.replicate (offset + bytes.length - s.data.length) (some 0)
  if h : (data.take offset ++ bytes.map some ++ data.drop (offset + bytes.length)).length <
      2 ^ 63 then
    (.ok (), ⟨_, h⟩)
  else (.error (.panics "capacity overflow"), s)

def readAt (offset n : Nat) : Act SparseStore Fault (List UInt8) := fun s =>
  (.ok (readable ((s.data.drop offset).take n)), s)

def truncate (len : Nat) : Act SparseStore Fault Unit := fun s =>
  (.ok (), ⟨s.data.take len, by
    have h := s.data_lt
    rw [List.length_take]
    omega⟩)

instance : WalStore SparseStore where
  writeAt := writeAt
  readAt := readAt
  truncate := truncate
  sync := pure ()
  len := fun s => (.ok s.data.length, s)

/-- What can be read at each offset. -/
def image (s : SparseStore) : Image UInt8 := fun o => s.data[o]?.join

theorem read_image_iff {s : SparseStore} {off n : Nat} {bs : List UInt8} :
    s.image.read off n = some bs ↔ (s.data.drop off).take n = bs.map some ∧ bs.length = n := by
  rw [Image.read_eq_some_iff]
  constructor
  · rintro ⟨hlen, hget⟩
    refine ⟨List.ext_getElem? fun i => ?_, hlen⟩
    by_cases hi : i < n
    · have h := hget i hi
      rw [List.getElem?_eq_getElem (by omega)] at h
      have hx : s.data[off + i]? = some (some bs[i]) := Option.join_eq_some_iff.mp h
      rw [List.getElem?_take_of_lt hi, List.getElem?_drop, hx, List.getElem?_map,
        List.getElem?_eq_getElem (by omega)]
      rfl
    · rw [List.getElem?_eq_none (by rw [List.length_take]; omega),
        List.getElem?_eq_none (by rw [List.length_map]; omega)]
  · rintro ⟨heq, hlen⟩
    refine ⟨hlen, fun i hi => ?_⟩
    have h := congrArg (fun l => l[i]?) heq
    rw [List.getElem?_take_of_lt hi, List.getElem?_drop, List.getElem?_map] at h
    show s.data[off + i]?.join = _
    rw [h, List.getElem?_eq_getElem (by omega)]
    rfl

theorem readable_map_some (bs : List UInt8) : readable (bs.map some) = bs := by
  induction bs with
  | nil => rfl
  | cons b bs ih => rw [List.map_cons, readable, ih]

theorem readable_length_le (xs : List (Option UInt8)) : (readable xs).length ≤ xs.length := by
  induction xs with
  | nil => exact Nat.le_refl 0
  | cons x xs ih =>
      cases x with
      | none => exact Nat.zero_le _
      | some b => exact Nat.succ_le_succ ih

/-- Bytes that were read whole were all readable. -/
theorem eq_map_some_of_length {xs : List (Option UInt8)} {n : Nat} (hn : xs.length ≤ n)
    (h : n ≤ (readable xs).length) : ∃ bs : List UInt8, xs = bs.map some ∧ bs.length = n := by
  induction xs generalizing n with
  | nil => exact ⟨[], rfl, (Nat.le_zero.mp h).symm⟩
  | cons x xs ih =>
      rw [List.length_cons] at hn
      cases x with
      | none => exact absurd (Nat.le_trans hn h) (by simp [readable])
      | some b =>
          rw [readable, List.length_cons] at h
          obtain ⟨bs, rfl, hlen⟩ := @ih (n - 1) (by omega) (by omega)
          exact ⟨b :: bs, rfl, by rw [List.length_cons]; omega⟩

/-- A sparse store is its readable bytes. -/
theorem view (s : SparseStore) : View s.image s.data.length (· = s) where
  full := by
    rintro t off n bs rfl h
    refine ⟨t, ?_, rfl⟩
    show (Except.ok (readable ((t.data.drop off).take n)), t) = _
    rw [(read_image_iff.mp h).1, readable_map_some]
  past := by
    rintro t off n rfl -
    exact Act.ends_of_ok rfl rfl
  short := by
    rintro t off n rfl - h
    refine ⟨_, t, rfl, ?_, rfl⟩
    by_contra hge
    obtain ⟨bs, hbs, hlen⟩ := eq_map_some_of_length (List.length_take_le n (t.data.drop off))
      (Nat.not_lt.mp hge)
    rw [read_image_iff.mpr ⟨hbs, hlen⟩] at h
    cases h
  len_eq := by
    rintro t rfl
    rfl
  past_end h := by simp [image, List.getElem?_eq_none h]
  size_lt := by have h := s.data_lt; omega

end SparseStore

end WalDb
