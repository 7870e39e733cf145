/-
Positioned reads and writes (`pwrite_all` and `pread_fill` of `store.rs`).

A system call may transfer fewer bytes than it was asked for, be interrupted, or
fail, and both functions call again until they are done.  A schedule holds the
answers of the next calls.  Nothing is assumed about it, but that a call transfers no
more than it was asked for, that no file grows past the largest size the system
allows, and that a read gives no byte only at the end of the file.

`File.pwriteAll` and `File.preadFill` are what the two loops come to when they
succeed, and are shown to be that here.  A write that fails has placed some of its
bytes, from the front.
-/
import WalDb.File

namespace WalDb

open Lib

namespace PositionedIo

/-- What a system call answers. -/
inductive Answer where
  /-- A transfer of at most `n` bytes. -/
  | count (n : Nat)
  | interrupted
  | error (e : IoError)
  deriving DecidableEq, Repr

def Answer.interrupts : Answer → Bool
  | .count _ => false
  | .interrupted => true
  | .error _ => false

/-- What the caller gets from it. -/
inductive Outcome (α : Type) where
  | ok (a : α)
  | interrupted
  | error (e : IoError)

/-- How far a call gets on a schedule. -/
inductive Ended (α : Type) where
  | returned (r : Except IoError α)
  /-- An offset left the range of `u64`. -/
  | panicked
  /-- The schedule is over before the call is. -/
  | waiting

/-- A file of a system that allows sizes up to `limit`. -/
structure OpenFile where
  bytes : List UInt8
  limit : Nat
  limit_lt : limit < 2 ^ 64
  length_le : bytes.length ≤ limit

/-- `data` with `bytes` at `offset`; without bytes there is no write and no gap. -/
def place (data : List UInt8) (offset : Nat) (bytes : List UInt8) : List UInt8 :=
  if bytes = [] then data else overwrite data offset bytes

@[simp] theorem place_nil (data : List UInt8) (offset : Nat) : place data offset [] = data :=
  if_pos rfl

theorem length_place_le {data bytes : List UInt8} {offset limit : Nat} (hdata : data.length ≤ limit)
    (h : offset + bytes.length ≤ limit) : (place data offset bytes).length ≤ limit := by
  unfold place
  split
  · exact hdata
  · rw [length_overwrite]
    omega

/-- Placing bytes in two steps is placing them in one. -/
theorem place_append (data : List UInt8) (offset : Nat) (a b : List UInt8) :
    place (place data offset a) (offset + a.length) b = place data offset (a ++ b) := by
  by_cases ha : a = []
  · simp [ha]
  · by_cases hb : b = []
    · simp [hb]
    · rw [place, place, place, if_neg ha, if_neg hb, if_neg (by simp [ha]), overwrite_append]

namespace OpenFile

/-- `FileExt::write_at`. -/
def writeAt (file : OpenFile) (offset : Nat) (buf : List UInt8) :
    Answer → Outcome Nat × OpenFile
  | .count n =>
      -- A file never grows past the largest size.
      if h : offset < file.limit then
        let n := min n (min buf.length (file.limit - offset))
        (.ok n,
          { file with
            bytes := place file.bytes offset (buf.take n)
            length_le := length_place_le file.length_le (by rw [List.length_take]; omega) })
      else (.error .os, file)
  | .interrupted => (.interrupted, file)
  | .error e => (.error e, file)

/-- `FileExt::read_at` into `want` bytes.  It gives at least one of those that are
there. -/
def readAt (file : OpenFile) (offset want : Nat) : Answer → Outcome (List UInt8)
  | .count n => .ok ((file.bytes.drop offset).take (min (max 1 n) want))
  | .interrupted => .interrupted
  | .error e => .error e

/-- A call that transfers `n` bytes has placed just these. -/
theorem writeAt_ok {file mid : OpenFile} {offset n : Nat} {buf : List UInt8} {answer : Answer}
    (h : file.writeAt offset buf answer = (.ok n, mid)) :
    n ≤ buf.length ∧ offset + n ≤ file.limit ∧
      mid.bytes = place file.bytes offset (buf.take n) ∧ mid.limit = file.limit ∧
      answer.interrupts = false := by
  cases answer with
  | count c =>
      rw [writeAt] at h
      split at h
      · cases h
        exact ⟨by omega, by omega, rfl, rfl, rfl⟩
      · cases h
  | interrupted => cases h
  | error e => cases h

theorem writeAt_interrupted {file mid : OpenFile} {offset : Nat} {buf : List UInt8}
    {answer : Answer} (h : file.writeAt offset buf answer = (.interrupted, mid)) :
    answer = .interrupted ∧ mid = file := by
  cases answer with
  | count c =>
      rw [writeAt] at h
      split at h <;> cases h
  | interrupted =>
      cases h
      exact ⟨rfl, rfl⟩
  | error e => cases h

theorem writeAt_error {file mid : OpenFile} {offset : Nat} {buf : List UInt8} {answer : Answer}
    {e : IoError} (h : file.writeAt offset buf answer = (.error e, mid)) : mid = file := by
  cases answer with
  | count c =>
      rw [writeAt] at h
      split at h
      · cases h
      · cases h
        rfl
  | interrupted => cases h
  | error e =>
      cases h
      rfl

/-- A read gives bytes of the file from the offset on, and none only at its end. -/
theorem readAt_ok {file : OpenFile} {offset want : Nat} {answer : Answer} {bytes : List UInt8}
    (h : file.readAt offset want answer = .ok bytes) :
    bytes = (file.bytes.drop offset).take bytes.length ∧ bytes.length ≤ want ∧
      (bytes.length = 0 → want = 0 ∨ file.bytes.length ≤ offset) ∧
      (bytes.length ≠ 0 → offset + bytes.length ≤ file.bytes.length) ∧
      answer.interrupts = false := by
  cases answer with
  | count n =>
      rw [readAt] at h
      cases h
      simp only [List.length_take, List.length_drop]
      refine ⟨?_, by omega, by omega, by omega, rfl⟩
      rw [List.take_eq_take_iff, List.length_drop]
      omega
  | interrupted => cases h
  | error e => cases h

theorem readAt_interrupted {file : OpenFile} {offset want : Nat} {answer : Answer}
    (h : file.readAt offset want answer = .interrupted) : answer = .interrupted := by
  cases answer with
  | count n => cases h
  | interrupted => rfl
  | error e => cases h

end OpenFile

def writeZero : IoError := .other "the store accepted zero bytes mid-record"

/-- `pwrite_all`. -/
def pwriteAll : List Answer → OpenFile → Nat → List UInt8 → Ended Unit × OpenFile
  | [], file, _, buf => (if buf = [] then .returned (.ok ()) else .waiting, file)
  | answer :: schedule, file, offset, buf =>
      if buf = [] then (.returned (.ok ()), file)
      else
        match file.writeAt offset buf answer with
        | (.ok n, file) =>
            if n = 0 then (.returned (.error writeZero), file)
            else if offset + n < 2 ^ 64 then
              pwriteAll schedule file (offset + n) (buf.drop n)
            else (.panicked, file)
        | (.interrupted, file) => pwriteAll schedule file offset buf
        | (.error e, file) => (.returned (.error e), file)

/-- `pread_fill`, from the point where `total` bytes are filled. -/
def preadFill : List Answer → OpenFile → Nat → Nat → List UInt8 → Ended Nat × List UInt8
  | [], _, _, total, buf =>
      (if total < buf.length then .waiting else .returned (.ok total), buf)
  | answer :: schedule, file, offset, total, buf =>
      if total < buf.length then
        match file.readAt offset (buf.length - total) answer with
        | .ok bytes =>
            let n := bytes.length
            let buf := overwrite buf total bytes
            if n = 0 then (.returned (.ok total), buf)
            else if offset + n < 2 ^ 64 then
              preadFill schedule file (offset + n) (total + n) buf
            else (.panicked, buf)
        | .interrupted => preadFill schedule file offset total buf
        | .error e => (.returned (.error e), buf)
      else (.returned (.ok total), buf)

/-! ## Writing -/

/-- Where a call of `pwrite_all` stands when `k` bytes are placed. -/
def WriteEnds (buf : List UInt8) (k : Nat) : Ended Unit → Prop
  | .returned (.ok ()) => k = buf.length
  | .returned (.error _) => k < buf.length
  | .panicked => False
  | .waiting => k < buf.length

/-- After a call of `pwrite_all` there is a prefix of the buffer in the file. -/
structure Wrote (file : OpenFile) (offset : Nat) (buf : List UInt8) (k : Nat) (r : Ended Unit)
    (file' : OpenFile) : Prop where
  le : k ≤ buf.length
  bytes : file'.bytes = place file.bytes offset (buf.take k)
  limit : file'.limit = file.limit
  ends : WriteEnds buf k r

theorem Wrote.stop {file : OpenFile} {offset : Nat} {buf : List UInt8} {r : Ended Unit}
    (h : WriteEnds buf 0 r) : Wrote file offset buf 0 r file :=
  ⟨Nat.zero_le _, by simp, rfl, h⟩

/-- A transfer of `n` bytes, and what the rest of the call does with the others. -/
theorem Wrote.transfer {file mid file' : OpenFile} {offset n k : Nat} {buf : List UInt8}
    {r : Ended Unit} (hn : n ≤ buf.length)
    (hbytes : mid.bytes = place file.bytes offset (buf.take n)) (hlimit : mid.limit = file.limit)
    (hrest : Wrote mid (offset + n) (buf.drop n) k r file') :
    Wrote file offset buf (n + k) r file' := by
  have hk := hrest.le
  rw [List.length_drop] at hk
  refine ⟨by omega, ?_, hrest.limit.trans hlimit, ?_⟩
  · have hlen : (buf.take n).length = n := List.length_take_of_le hn
    have htake : buf.take (n + k) = buf.take n ++ (buf.drop n).take k := List.take_add
    have := place_append file.bytes offset (buf.take n) ((buf.drop n).take k)
    rw [hlen] at this
    rw [hrest.bytes, hbytes, htake, this]
  · have hends := hrest.ends
    cases r with
    | returned r =>
        cases r with
        | ok _ =>
            simp only [WriteEnds, List.length_drop] at hends ⊢
            omega
        | error _ =>
            simp only [WriteEnds, List.length_drop] at hends ⊢
            omega
    | panicked => exact hends
    | waiting =>
        simp only [WriteEnds, List.length_drop] at hends ⊢
        omega

theorem pwriteAll_nil (schedule : List Answer) (file : OpenFile) (offset : Nat) :
    pwriteAll schedule file offset [] = (.returned (.ok ()), file) := by
  cases schedule <;> rfl

theorem pwriteAll_wrote (schedule : List Answer) (file : OpenFile) (offset : Nat)
    (buf : List UInt8) :
    ∃ k, Wrote file offset buf k (pwriteAll schedule file offset buf).1
      (pwriteAll schedule file offset buf).2 := by
  induction schedule generalizing file offset buf with
  | nil =>
      refine ⟨0, Wrote.stop ?_⟩
      by_cases hbuf : buf = []
      · subst hbuf
        exact rfl
      · rw [pwriteAll, if_neg hbuf]
        exact List.length_pos_of_ne_nil hbuf
  | cons answer schedule ih =>
      by_cases hbuf : buf = []
      · subst hbuf
        rw [pwriteAll_nil]
        exact ⟨0, Wrote.stop rfl⟩
      · have hpos := List.length_pos_of_ne_nil hbuf
        rw [pwriteAll, if_neg hbuf]
        rcases hcall : file.writeAt offset buf answer with ⟨outcome, mid⟩
        cases outcome with
        | ok n =>
            obtain ⟨hn, hlimit, hbytes, hsame, -⟩ := OpenFile.writeAt_ok hcall
            have hlt := file.limit_lt
            dsimp only
            by_cases hzero : n = 0
            · subst hzero
              rw [if_pos rfl]
              exact ⟨0, Nat.zero_le _, hbytes, hsame, hpos⟩
            · rw [if_neg hzero, if_pos (by omega)]
              obtain ⟨k, hk⟩ := ih mid (offset + n) (buf.drop n)
              exact ⟨n + k, Wrote.transfer hn hbytes hsame hk⟩
        | interrupted =>
            rw [(OpenFile.writeAt_interrupted hcall).2]
            exact ih file offset buf
        | error e =>
            rw [OpenFile.writeAt_error hcall]
            exact ⟨0, Wrote.stop hpos⟩

/-- Every answer but an interruption brings the call closer to its end. -/
theorem pwriteAll_returns {schedule : List Answer} {file : OpenFile} {offset : Nat}
    {buf : List UInt8} (h : buf.length ≤ schedule.countP fun a => !a.interrupts) :
    ∃ r, (pwriteAll schedule file offset buf).1 = .returned r := by
  induction schedule generalizing file offset buf with
  | nil =>
      have hbuf : buf = [] := List.length_eq_zero_iff.mp (Nat.le_zero.mp h)
      rw [hbuf]
      exact ⟨_, rfl⟩
  | cons answer schedule ih =>
      by_cases hbuf : buf = []
      · rw [hbuf, pwriteAll_nil]
        exact ⟨_, rfl⟩
      · rw [pwriteAll, if_neg hbuf]
        rcases hcall : file.writeAt offset buf answer with ⟨outcome, mid⟩
        cases outcome with
        | ok n =>
            obtain ⟨hn, hlimit, -, -, hstep⟩ := OpenFile.writeAt_ok hcall
            have hlt := file.limit_lt
            rw [List.countP_cons, hstep] at h
            dsimp only
            by_cases hzero : n = 0
            · rw [if_pos hzero]
              exact ⟨_, rfl⟩
            · rw [if_neg hzero, if_pos (by omega)]
              apply ih
              rw [List.length_drop]
              simp only [Bool.not_false, if_true] at h
              omega
        | interrupted =>
            have hint := (OpenFile.writeAt_interrupted hcall).1
            subst hint
            apply ih
            simpa [List.countP_cons, Answer.interrupts] using h
        | error e => exact ⟨_, rfl⟩

/-! ## Reading -/

/-- Where a call of `pread_fill` stands when it has read `k` more bytes. -/
def FillEnds (file : OpenFile) (offset total : Nat) (buf : List UInt8) (k : Nat) :
    Ended Nat → Prop
  | .returned (.ok n) => n = total + k ∧ (n < buf.length → file.bytes.length ≤ offset + k)
  | .returned (.error _) => True
  | .panicked => False
  | .waiting => True

/-- After a call of `pread_fill` the buffer holds bytes of the file from `total` on. -/
structure Filled (file : OpenFile) (offset total : Nat) (buf : List UInt8) (k : Nat)
    (r : Ended Nat) (buf' : List UInt8) : Prop where
  le : total + k ≤ buf.length
  there : ((file.bytes.drop offset).take k).length = k
  bytes : buf' = overwrite buf total ((file.bytes.drop offset).take k)
  ends : FillEnds file offset total buf k r

theorem Filled.stop {file : OpenFile} {offset total : Nat} {buf : List UInt8} {r : Ended Nat}
    (hle : total ≤ buf.length) (h : FillEnds file offset total buf 0 r) :
    Filled file offset total buf 0 r buf :=
  ⟨hle, by simp, by rw [List.take_zero, overwrite_nil hle], h⟩

/-- A transfer of `n` bytes, and the rest of the call. -/
theorem Filled.transfer {file : OpenFile} {offset total n k : Nat} {bytes buf buf' : List UInt8}
    {r : Ended Nat} (hlen : bytes.length = n) (hle : total + n ≤ buf.length)
    (hbytes : bytes = (file.bytes.drop offset).take n)
    (hrest : Filled file (offset + n) (total + n) (overwrite buf total bytes) k r buf') :
    Filled file offset total buf (n + k) r buf' := by
  have hsame : (overwrite buf total bytes).length = buf.length := by
    rw [length_overwrite]
    omega
  have htake : (file.bytes.drop offset).take (n + k) =
      bytes ++ (file.bytes.drop (offset + n)).take k := by
    rw [List.take_add, ← hbytes, List.drop_drop]
  have hk := hrest.le
  have hends := hrest.ends
  rw [hsame] at hk
  refine ⟨by omega, ?_, ?_, ?_⟩
  · rw [htake, List.length_append, hrest.there, hlen]
  · rw [htake, hrest.bytes, ← overwrite_append, hlen]
  · cases r with
    | returned r =>
        cases r with
        | ok m =>
            simp only [FillEnds, hsame] at hends ⊢
            exact ⟨by omega, fun hm => by have := hends.2 hm; omega⟩
        | error _ => exact hends
    | panicked => exact hends
    | waiting => exact hends

theorem preadFill_full (schedule : List Answer) (file : OpenFile) (offset : Nat) {total : Nat}
    {buf : List UInt8} (h : ¬ total < buf.length) :
    preadFill schedule file offset total buf = (.returned (.ok total), buf) := by
  cases schedule <;> simp only [preadFill, h, if_false]

theorem preadFill_filled (schedule : List Answer) (file : OpenFile) (offset : Nat) {total : Nat}
    {buf : List UInt8} (hle : total ≤ buf.length) :
    ∃ k, Filled file offset total buf k (preadFill schedule file offset total buf).1
      (preadFill schedule file offset total buf).2 := by
  induction schedule generalizing offset total buf with
  | nil =>
      by_cases hfull : total < buf.length
      · rw [preadFill, if_pos hfull]
        exact ⟨0, Filled.stop hle trivial⟩
      · rw [preadFill_full _ _ _ hfull]
        exact ⟨0, Filled.stop hle ⟨rfl, fun h => absurd h hfull⟩⟩
  | cons answer schedule ih =>
      by_cases hfull : total < buf.length
      · rw [preadFill, if_pos hfull]
        cases hcall : file.readAt offset (buf.length - total) answer with
        | ok bytes =>
            obtain ⟨hbytes, hwant, hend, hthere, -⟩ := OpenFile.readAt_ok hcall
            have hlt := file.limit_lt
            have hlimit := file.length_le
            dsimp only
            by_cases hzero : bytes.length = 0
            · rw [if_pos hzero]
              have hnil : bytes = [] := List.length_eq_zero_iff.mp hzero
              rw [hnil, overwrite_nil hle]
              exact ⟨0, Filled.stop hle ⟨rfl, fun _ => by have := hend hzero; omega⟩⟩
            · have hfile := hthere hzero
              rw [if_neg hzero, if_pos (by omega)]
              have hsame : (overwrite buf total bytes).length = buf.length := by
                rw [length_overwrite]
                omega
              obtain ⟨k, hk⟩ := ih (offset + bytes.length)
                (show total + bytes.length ≤ (overwrite buf total bytes).length by omega)
              exact ⟨bytes.length + k, Filled.transfer rfl (by omega) hbytes hk⟩
        | interrupted => exact ih offset hle
        | error e => exact ⟨0, Filled.stop hle trivial⟩
      · rw [preadFill_full _ _ _ hfull]
        exact ⟨0, Filled.stop hle ⟨rfl, fun h => absurd h hfull⟩⟩

theorem preadFill_returns {schedule : List Answer} {file : OpenFile} {offset total : Nat}
    {buf : List UInt8} (h : buf.length - total ≤ schedule.countP fun a => !a.interrupts) :
    ∃ r, (preadFill schedule file offset total buf).1 = .returned r := by
  induction schedule generalizing offset total buf with
  | nil =>
      have hfull : ¬ total < buf.length := by
        simp only [List.countP_nil] at h
        omega
      rw [preadFill_full _ _ _ hfull]
      exact ⟨_, rfl⟩
  | cons answer schedule ih =>
      by_cases hfull : total < buf.length
      · rw [preadFill, if_pos hfull]
        cases hcall : file.readAt offset (buf.length - total) answer with
        | ok bytes =>
            obtain ⟨-, hwant, -, hthere, hstep⟩ := OpenFile.readAt_ok hcall
            have hlt := file.limit_lt
            have hlimit := file.length_le
            rw [List.countP_cons, hstep] at h
            simp only [Bool.not_false, if_true] at h
            dsimp only
            by_cases hzero : bytes.length = 0
            · rw [if_pos hzero]
              exact ⟨_, rfl⟩
            · have hfile := hthere hzero
              rw [if_neg hzero, if_pos (by omega)]
              apply ih
              rw [length_overwrite]
              omega
        | interrupted =>
            have hint := OpenFile.readAt_interrupted hcall
            subst hint
            apply ih
            simpa [List.countP_cons, Answer.interrupts] using h
        | error e => exact ⟨_, rfl⟩
      · rw [preadFill_full _ _ _ hfull]
        exact ⟨_, rfl⟩

/-! ## The two calls -/

/-- `data'` is `data` with `bytes` at `offset`: they are there, every other byte is as it
was, and what lies between the old end and them is zero. -/
def Places (data : List UInt8) (offset : Nat) (bytes data' : List UInt8) : Prop :=
  ∀ o : Nat, data'[o]? =
    if offset ≤ o ∧ o < offset + bytes.length then bytes[o - offset]?
    else if o < data.length then data[o]?
    else if o < offset ∧ bytes ≠ [] then some 0
    else none

theorem places_place (data : List UInt8) (offset : Nat) (bytes : List UInt8) :
    Places data offset bytes (place data offset bytes) := by
  intro o
  by_cases hbytes : bytes = []
  · subst hbytes
    by_cases ho : o < data.length
    · simp [ho]
    · simp [ho]
  · rw [place, if_neg hbytes, getElem?_overwrite]
    simp only [ne_eq, hbytes, not_false_eq_true, and_true]

/-- `File.pwriteAll` is a `pwrite_all` that succeeds. -/
theorem pwriteAll_eq {schedule : List Answer} {file file' : OpenFile} {offset : Nat}
    {buf : List UInt8} (hbuf : buf ≠ [])
    (h : pwriteAll schedule file offset buf = (.returned (.ok ()), file')) (durable : List UInt8) :
    (⟨file'.bytes, durable⟩ : File) = File.pwriteAll ⟨file.bytes, durable⟩ offset buf := by
  obtain ⟨k, hk⟩ := pwriteAll_wrote schedule file offset buf
  rw [h] at hk
  have hall : k = buf.length := hk.ends
  rw [hk.bytes, hall, List.take_length, place, if_neg hbuf]
  rfl

/-- What a successful `pread_fill` leaves in the buffer. -/
theorem preadFill_ok {schedule : List Answer} {file : OpenFile} {offset n : Nat}
    {buf buf' : List UInt8}
    (h : preadFill schedule file offset 0 buf = (.returned (.ok n), buf')) :
    n ≤ buf.length ∧ ((file.bytes.drop offset).take n).length = n ∧
      buf' = (file.bytes.drop offset).take n ++ buf.drop n ∧
      (n < buf.length → file.bytes.length ≤ offset + n) := by
  obtain ⟨k, hk⟩ := preadFill_filled schedule file offset (Nat.zero_le buf.length)
  rw [h] at hk
  obtain ⟨hn, hend⟩ := hk.ends
  have hle := hk.le
  have hbytes := hk.bytes
  rw [Nat.zero_add] at hn hle
  subst hn
  refine ⟨hle, hk.there, ?_, hend⟩
  simpa only [overwrite, List.take_zero, List.nil_append, Nat.zero_sub, List.replicate_zero,
    Nat.zero_add, hk.there] using hbytes

/-- `File.preadFill` is a `pread_fill` that succeeds. -/
theorem preadFill_eq {schedule : List Answer} {file : OpenFile} {offset n : Nat}
    {buf buf' : List UInt8}
    (h : preadFill schedule file offset 0 buf = (.returned (.ok n), buf'))
    (durable : List UInt8) :
    buf'.take n = File.preadFill ⟨file.bytes, durable⟩ offset buf.length := by
  obtain ⟨hle, hthere, hbuf, hend⟩ := preadFill_ok h
  rw [hbuf, List.take_left' hthere, File.preadFill]
  -- Where the buffer is not full, the file has no more to give.
  rw [List.length_take, List.length_drop] at hthere
  rw [List.take_eq_take_iff, List.length_drop]
  omega

/-- What the two loops do under every schedule of the operating system.

A `pwrite_all` that succeeds has placed its buffer and one that fails has placed a prefix
of it, with nothing else changed.  A `pread_fill` that succeeds with `n` has filled `n`
bytes from the file and left the rest of the buffer, and stops short of the buffer's
length only at the end of the file.  Neither ever takes an offset out of range, and each
returns once it has had as many answers other than interruptions as it has bytes to
move. -/
theorem positioned_io_exact (schedule : List Answer) (file : OpenFile) (offset : Nat)
    (buf : List UInt8) :
    (∀ file', pwriteAll schedule file offset buf = (.returned (.ok ()), file') →
      Places file.bytes offset buf file'.bytes) ∧
    (∀ e file', pwriteAll schedule file offset buf = (.returned (.error e), file') →
      ∃ k < buf.length, Places file.bytes offset (buf.take k) file'.bytes) ∧
    (∀ n buf', preadFill schedule file offset 0 buf = (.returned (.ok n), buf') →
      n ≤ buf.length ∧ (0 < n → offset + n ≤ file.bytes.length) ∧
      buf'.take n = (file.bytes.drop offset).take n ∧ buf'.drop n = buf.drop n ∧
      (n < buf.length → file.bytes.length ≤ offset + n)) ∧
    (pwriteAll schedule file offset buf).1 ≠ .panicked ∧
    (preadFill schedule file offset 0 buf).1 ≠ .panicked ∧
    (buf.length ≤ schedule.countP (fun a => !a.interrupts) →
      (∃ r, (pwriteAll schedule file offset buf).1 = .returned r) ∧
      (∃ r, (preadFill schedule file offset 0 buf).1 = .returned r)) := by
  obtain ⟨k, hwrote⟩ := pwriteAll_wrote schedule file offset buf
  obtain ⟨m, hfilled⟩ := preadFill_filled schedule file offset (Nat.zero_le buf.length)
  refine ⟨?_, ?_, ?_, ?_, ?_, ?_⟩
  · intro file' h
    rw [h] at hwrote
    have hall : k = buf.length := hwrote.ends
    rw [hwrote.bytes, hall, List.take_length]
    exact places_place _ _ _
  · intro e file' h
    rw [h] at hwrote
    refine ⟨k, hwrote.ends, ?_⟩
    rw [hwrote.bytes]
    exact places_place _ _ _
  · intro n buf' h
    obtain ⟨hle, hthere, hbuf, hend⟩ := preadFill_ok h
    refine ⟨hle, ?_, ?_, ?_, hend⟩
    · rw [List.length_take, List.length_drop] at hthere
      omega
    · rw [hbuf, List.take_left' hthere]
    · rw [hbuf, List.drop_left' hthere]
  · intro h
    rw [h] at hwrote
    exact hwrote.ends
  · intro h
    rw [h] at hfilled
    exact hfilled.ends
  · intro h
    exact ⟨pwriteAll_returns h, preadFill_returns h⟩

/-- A write past the end in two parts with an interruption between them, one that fails
half way, and a read across the end of the file. -/
theorem positioned_io_exact_short :
    let file : OpenFile := ⟨[1, 2], 2 ^ 63 - 1, by decide, by decide⟩
    Places [1, 2] 4 [7, 8, 9]
      (pwriteAll [.count 1, .interrupted, .count 5] file 4 [7, 8, 9]).2.bytes ∧
    (∃ k < 3, Places [1, 2] 4 ([7, 8, 9].take k)
      (pwriteAll [.count 2, .interrupted, .error .os] file 4 [7, 8, 9]).2.bytes) ∧
    (preadFill [.count 4, .interrupted, .count 1] file 1 0 [0, 0, 0]).2.take 1 = [2] ∧
    ∃ r, (pwriteAll [.count 1, .count 0, .error .os] file 4 [7, 8, 9]).1 = .returned r := by
  intro file
  refine ⟨?_, ?_, ?_, ?_⟩
  · exact (positioned_io_exact [.count 1, .interrupted, .count 5] file 4 [7, 8, 9]).1 _ rfl
  · exact (positioned_io_exact [.count 2, .interrupted, .error .os] file 4 [7, 8, 9]).2.1 .os _ rfl
  · have hread := positioned_io_exact [.count 4, .interrupted, .count 1] file 1 [0, 0, 0]
    exact (hread.2.2.1 1 _ rfl).2.2.1
  · have hwrite := positioned_io_exact [.count 1, .count 0, .error .os] file 4 [7, 8, 9]
    exact (hwrite.2.2.2.2.2 (by decide)).1

end PositionedIo

end WalDb
