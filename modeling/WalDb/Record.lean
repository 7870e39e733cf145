/-
On-disk record framing (`record.rs`).

A record is an 8-byte header, the checksum and then the payload length, both
little-endian, followed by the payload.  The checksum covers the length and the
payload.  `intact_iff` is the theorem this file exists for: a header and a
payload that pass the length and checksum tests of the readers are, byte for
byte, a frame the writer produces, and conversely.
-/
import WalDb.Crc32c
import WalDb.Lib.LittleEndian

namespace WalDb
namespace Record

open Lib

/-- Byte offset of the checksum within the header. -/
def crcOffset : Nat := 0

/-- Byte offset of the payload-length field within the header. -/
def lenOffset : Nat := 4

/-- Total header size in bytes. -/
def headerLen : Nat := 8

/-- The parsed fields of a record header. -/
structure Header where
  crc : BitVec 32
  len : Nat
  deriving DecidableEq, Repr

/-- The total on-disk size of a record with a payload of `payloadLen` bytes. -/
def framedLen (payloadLen : Nat) : Nat := headerLen + payloadLen

theorem framedLen_pos (payloadLen : Nat) : 0 < framedLen payloadLen := by
  unfold framedLen headerLen
  omega

/-- Frame `payload` into the caller's reused buffer `buf`. -/
def encode (buf payload : List UInt8) : List UInt8 :=
  let buf := buf.take 0
  let buf := buf ++ [0, 0, 0, 0]
  -- `payload.len() as u32`: four digits keep the length modulo 2^32.
  let buf := buf ++ toLe 4 payload.length
  let buf := buf ++ payload
  let crc := crc32c (buf.drop lenOffset)
  buf.take crcOffset ++ toLe 4 crc.toNat ++ buf.drop lenOffset

def parseHeader (bytes : List UInt8) : Header :=
  { crc := BitVec.ofNat 32 (ofLe (bytes.take 4)),
    len := ofLe ((bytes.drop 4).take 4) }

/-- Recompute the checksum in two chunks, the header's length field and then the
payload, and compare it to the value the header claims. -/
def verify (headerBytes payload : List UInt8) (expectedCrc : BitVec 32) : Bool :=
  let partialCrc := crc32c ((headerBytes.drop lenOffset).take (headerLen - lenOffset))
  crc32cAppend partialCrc payload == expectedCrc

/-- The frame of a payload: what `encode` leaves in the buffer. -/
def frame (payload : List UInt8) : List UInt8 := encode [] payload

/-- The length field and the payload: the bytes the checksum covers. -/
def body (payload : List UInt8) : List UInt8 := toLe 4 payload.length ++ payload

theorem frame_eq (payload : List UInt8) :
    frame payload = toLe 4 (crc32c (body payload)).toNat ++ body payload := by
  simp [frame, encode, body, crcOffset, lenOffset]

/-- Nothing the buffer held before reaches the frame. -/
theorem encode_eq_frame (buf payload : List UInt8) : encode buf payload = frame payload := by
  simp [frame, encode]

@[simp] theorem frame_length (payload : List UInt8) :
    (frame payload).length = framedLen payload.length := by
  simp only [frame_eq, body, framedLen, headerLen, List.length_append, toLe_length]
  omega

theorem frame_ne_nil (payload : List UInt8) : frame payload ≠ [] := by
  refine List.ne_nil_of_length_pos ?_
  rw [frame_length]
  exact framedLen_pos _

@[simp] theorem encode_length (buf payload : List UInt8) :
    (encode buf payload).length = framedLen payload.length := by
  rw [encode_eq_frame, frame_length]

theorem parseHeader_len_lt (bytes : List UInt8) : (parseHeader bytes).len < 2 ^ 32 := by
  have h := ofLe_lt ((bytes.drop 4).take 4)
  have hle : ((bytes.drop 4).take 4).length ≤ 4 := List.length_take_le _ _
  calc (parseHeader bytes).len
      < 256 ^ ((bytes.drop 4).take 4).length := h
    _ ≤ 256 ^ 4 := Nat.pow_le_pow_right (by decide) hle
    _ = 2 ^ 32 := by decide

/-- The header of a frame: its first eight bytes. -/
def header (payload : List UInt8) : List UInt8 :=
  toLe 4 (crc32c (body payload)).toNat ++ toLe 4 payload.length

@[simp] theorem header_length (payload : List UInt8) : (header payload).length = headerLen := by
  simp [header, headerLen]

theorem frame_eq_header_append (payload : List UInt8) :
    frame payload = header payload ++ payload := by
  simp [frame_eq, header, body]

theorem header_lenField (payload : List UInt8) :
    ((header payload).drop 4).take 4 = toLe 4 payload.length := by
  simp [header, List.take_of_length_le]

theorem parseHeader_header {payload : List UInt8} (h : payload.length < 2 ^ 32) :
    parseHeader (header payload) =
      { crc := crc32c (body payload), len := payload.length } := by
  have hlt : (crc32c (body payload)).toNat < 256 ^ 4 := (crc32c (body payload)).isLt
  have hcrc : (header payload).take 4 = toLe 4 (crc32c (body payload)).toNat := by
    simp [header]
  rw [parseHeader, hcrc, header_lenField, ofLe_toLe_of_lt hlt, ofLe_toLe_of_lt (by simpa using h)]
  simp

theorem verify_header (payload : List UInt8) :
    verify (header payload) payload (crc32c (body payload)) = true := by
  have hlen : ((header payload).drop lenOffset).take (headerLen - lenOffset) =
      toLe 4 payload.length := header_lenField payload
  simp only [verify, hlen, beq_iff_eq, body, crc32c_append]

/-- A header and a payload pass the readers' tests exactly when they are a frame:
the writer's single pass over a patched buffer and the readers' two chunks
compute the same checksum. -/
theorem intact_iff {hdr payload : List UInt8} (hh : hdr.length = headerLen) :
    (payload.length = (parseHeader hdr).len ∧
        verify hdr payload (parseHeader hdr).crc = true) ↔
      (payload.length < 2 ^ 32 ∧ hdr ++ payload = frame payload) := by
  constructor
  · rintro ⟨hlen, hver⟩
    have hlt : payload.length < 2 ^ 32 := by
      rw [hlen]
      exact parseHeader_len_lt hdr
    have hsplit : hdr = hdr.take 4 ++ hdr.drop 4 := (List.take_append_drop 4 hdr).symm
    have hdrop : (hdr.drop 4).length = 4 := by
      rw [List.length_drop, hh]
      rfl
    have htake : (hdr.take 4).length = 4 := by
      rw [List.length_take, hh]
      rfl
    have hfield : (hdr.drop 4).take 4 = hdr.drop 4 :=
      List.take_of_length_le (by omega)
    -- The length field is the expansion of the payload's length.
    have hlow : hdr.drop 4 = toLe 4 payload.length := by
      rw [hlen, parseHeader, hfield]
      have h := toLe_ofLe (hdr.drop 4)
      rw [hdrop] at h
      exact h.symm
    -- The checksum field is the expansion of the recomputed checksum.
    have hcrc : crc32c (body payload) = BitVec.ofNat 32 (ofLe (hdr.take 4)) := by
      simp only [verify, lenOffset, headerLen, beq_iff_eq, parseHeader] at hver
      rw [show (8 : Nat) - 4 = 4 from rfl, hfield, hlow, ← crc32c_append] at hver
      exact hver
    have hhigh : hdr.take 4 = toLe 4 (crc32c (body payload)).toNat := by
      have hb : ofLe (hdr.take 4) < 2 ^ 32 := by
        have h := ofLe_lt (hdr.take 4)
        rw [htake] at h
        exact h
      have h := toLe_ofLe (hdr.take 4)
      rw [htake] at h
      rw [hcrc, BitVec.toNat_ofNat, Nat.mod_eq_of_lt hb, h]
    refine ⟨hlt, ?_⟩
    rw [hsplit, hlow, hhigh, frame_eq_header_append, header]
  · rintro ⟨hlt, heq⟩
    rw [frame_eq_header_append] at heq
    obtain ⟨rfl, -⟩ := List.append_inj heq (by rw [hh, header_length])
    rw [parseHeader_header hlt]
    exact ⟨rfl, verify_header payload⟩

end Record
end WalDb
