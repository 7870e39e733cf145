/-
The record format as a code (`record.rs`, and the loop of `recover` in `wal.rs`).

`decode` reads a record off the front of a byte string as the scan of `recover` does.  It
finds a payload exactly where the bytes begin with its encoding, so records that follow one
another are told apart by their bytes alone, and a byte string holds one list of them.
-/
import WalDb.Lib.PrefixCode
import WalDb.Recovery

namespace WalDb

open Lib Record

namespace Record

/-- `u32::MAX`. -/
def u32Max : Nat := 2 ^ 32 - 1

/-- Read the record at the front of `bytes`: its payload, and the bytes behind it. -/
def decode (bytes : List UInt8) : Option (List UInt8 × List UInt8) :=
  let header := bytes.take headerLen
  if header.length < headerLen then none
  else
    let parsed := parseHeader header
    let payload := (bytes.drop headerLen).take parsed.len
    if payload.length < parsed.len then none
    else if verify header payload parsed.crc = false then none
    else some (payload, (bytes.drop headerLen).drop parsed.len)

theorem decode_frame {p : List UInt8} (hp : p.length < 2 ^ 32) (rest : List UInt8) :
    decode (frame p ++ rest) = some (p, rest) := by
  have htake : (frame p ++ rest).take headerLen = header p := by
    rw [frame_eq_header_append, List.append_assoc, ← header_length p, List.take_left]
  have hdrop : (frame p ++ rest).drop headerLen = p ++ rest := by
    rw [frame_eq_header_append, List.append_assoc, ← header_length p, List.drop_left]
  unfold decode
  simp only [htake, hdrop, parseHeader_header hp, List.take_left, List.drop_left, header_length,
    verify_header]
  simp

theorem decode_eq_some {bytes p rest : List UInt8} (h : decode bytes = some (p, rest)) :
    p.length < 2 ^ 32 ∧ bytes = frame p ++ rest := by
  unfold decode at h
  dsimp only at h
  split at h
  · cases h
  rename_i hhdr
  split at h
  · cases h
  rename_i hlen
  split at h
  · cases h
  rename_i hver
  simp only [Option.some.injEq, Prod.mk.injEq] at h
  obtain ⟨hpay, hrest⟩ := h
  have hheader : (bytes.take headerLen).length = headerLen :=
    Nat.le_antisymm (List.length_take_le _ _) (Nat.not_lt.mp hhdr)
  have hfull : ((bytes.drop headerLen).take (parseHeader (bytes.take headerLen)).len).length =
      (parseHeader (bytes.take headerLen)).len :=
    Nat.le_antisymm (List.length_take_le _ _) (Nat.not_lt.mp hlen)
  have hintact := (intact_iff hheader).mp ⟨hfull, (Bool.not_eq_false _).mp hver⟩
  rw [hpay] at hintact
  refine ⟨hintact.1, ?_⟩
  rw [← hintact.2, ← hrest, List.append_assoc, ← hpay, List.take_append_drop,
    List.take_append_drop]

/-- The readers accept the encodings of payloads whose length a `u32` holds, and nothing else. -/
theorem exact_encode (buf : List UInt8) :
    Exact (fun p => p.length ≤ u32Max) (encode buf) decode where
  decode_iff bytes p rest := by
    rw [encode_eq_frame]
    constructor
    · intro h
      obtain ⟨hlt, heq⟩ := decode_eq_some h
      exact ⟨Nat.le_sub_one_of_lt hlt, heq⟩
    · rintro ⟨hle, rfl⟩
      exact decode_frame (Nat.lt_of_le_sub_one (by decide) hle) rest
  encode_ne_nil p := by
    apply List.ne_nil_of_length_pos
    rw [encode_length]
    exact framedLen_pos _

end Record

/-- The records of a byte string are those that `decode` finds, up to the maximum. -/
theorem recordAt_ofList {data : List UInt8} {m off : Nat} (hm : m < 2 ^ 32) {p : List UInt8} :
    recordAt (Image.ofList data) m off = some p ↔
      p.length ≤ m ∧ ∃ rest, decode (data.drop off) = some (p, rest) := by
  rw [recordAt_eq_some_iff hm]
  refine and_congr_right fun hlen => ?_
  have hpos := framedLen_pos p.length
  constructor
  · intro hread
    by_cases hle : off + framedLen p.length ≤ data.length
    · rw [Image.read_ofList hle] at hread
      refine ⟨(data.drop off).drop (framedLen p.length), ?_⟩
      rw [← List.take_append_drop (framedLen p.length) (data.drop off), Option.some.inj hread]
      rw [decode_frame (Nat.lt_of_le_of_lt hlen hm), List.drop_left' (frame_length p)]
    · rw [Image.read_ofList_eq_none hpos (by omega)] at hread
      cases hread
  · rintro ⟨rest, hdecode⟩
    obtain ⟨-, heq⟩ := decode_eq_some hdecode
    have hlength := congrArg List.length heq
    rw [List.length_drop, List.length_append, frame_length] at hlength
    rw [Image.read_ofList (by omega), heq, List.take_left' (frame_length p)]

/-- One round of the scan of `recover` over a store that reads whole: `decode` at its offset. -/
theorem scanStep_decode {S : Type} [WalStore S] {data : S → List UInt8} {headAt : S → Nat}
    (F : FlatStore S data headAt) {m : Nat} (hm : m < 2 ^ 32) (off : Nat) (s : S) :
    scanStep m off s = (.ok ((decode ((data s).drop off)).bind fun r =>
      if r.1.length ≤ m then some (off + framedLen r.1.length) else none), s) := by
  cases hp : recordAt (Image.ofList (data s)) m off with
  | some p =>
      obtain ⟨hlen, rest, hdecode⟩ := (recordAt_ofList hm).mp hp
      obtain ⟨s', hstep, rfl⟩ := scanStep_record (F.view s).serves hm hp rfl
      rw [hstep, hdecode]
      simp [hlen]
  | none =>
      obtain ⟨_, s', hstep, rfl, rfl⟩ := (scanStep_stop (F.sight s).toProbes hp rfl).in_reach
        fun _ _ _ => trivial
      rw [hstep]
      cases hdecode : decode ((data s').drop off) with
      | none => rfl
      | some r =>
          have hbig : ¬ r.1.length ≤ m := by
            intro hlen
            have := (recordAt_ofList hm).mpr ⟨hlen, r.2, hdecode⟩
            rw [hp] at this
            cases this
          simp [hbig]

/-- Reading yields a payload exactly where the bytes begin with its encoding, whatever the
buffer held that it was encoded in; so the encoding is injective, none is the beginning of
another, and encodings that follow one another are read back as the one list they are of. -/
theorem record_format_exact :
    (∀ buf payload : List UInt8, encode buf payload = encode [] payload) ∧
    (∀ buf bytes p rest : List UInt8, p.length ≤ u32Max →
      (decode bytes = some (p, rest) ↔ bytes = encode buf p ++ rest)) ∧
    (∀ buf buf' p q : List UInt8, p.length ≤ u32Max → q.length ≤ u32Max →
      (encode buf p = encode buf' q → p = q) ∧ (encode buf p <+: encode buf' q → p = q)) ∧
    ∀ (buf : List UInt8) (ps : List (List UInt8)), (∀ p ∈ ps, p.length ≤ u32Max) →
      decodeAll decode (ps.flatMap (encode buf)) = (ps, []) ∧
        ∀ qs : List (List UInt8), (∀ q ∈ qs, q.length ≤ u32Max) →
          qs.flatMap (encode buf) = ps.flatMap (encode buf) → qs = ps := by
  refine ⟨encode_eq_frame, fun buf bytes p rest hp => ?_, fun buf buf' p q hp hq => ?_,
    fun buf ps hps => ?_⟩
  · rw [(exact_encode buf).decode_iff]
    exact and_iff_right hp
  · rw [encode_eq_frame buf', ← encode_eq_frame buf]
    exact ⟨(exact_encode buf).encode_inj hp hq, (exact_encode buf).eq_of_isPrefix hp hq⟩
  · exact ⟨(exact_encode buf).decodeAll_flatMap hps,
      fun qs hqs heq => (exact_encode buf).flatMap_inj hqs hps heq⟩

/-- A short record encoded where a longer one was, and bytes behind it. -/
theorem record_format_exact_reused :
    decode (encode [9, 9, 9, 9, 9, 9, 9, 9, 9, 9, 9, 9] [7] ++ [1, 2]) = some ([7], [1, 2]) ∧
      decodeAll decode (encode [] [7] ++ encode [] []) = ([[7], []], []) ∧
      ¬ encode [] [7] <+: encode [] [7, 8] := by
  obtain ⟨-, hread, hcode, hlists⟩ := record_format_exact
  refine ⟨(hread _ _ [7] [1, 2] (by decide)).mpr rfl, ?_, fun hpre => ?_⟩
  · exact (hlists [] [[7], []] (by decide)).1
  · have := (hcode [] [] [7] [7, 8] (by decide) (by decide)).2 hpre
    cases this

end WalDb
