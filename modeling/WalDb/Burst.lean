/-
Which damage to a stored record the checksum is sure to find.

`verify` reads the length field and the payload in two chunks; on a record as it
lies in the store that is one checksum over everything behind the checksum field
(`verify_stored`).  Damage to those bytes shifts the checksum by the register of the
damage alone (`crc32c_xorBytes`), which a burst of at most 32 bits cannot leave at
zero.
-/
import WalDb.Lib.Burst
import WalDb.Record

namespace WalDb

open Lib

/-- The checksums of two strings of one length differ by the bare register of their
difference. -/
theorem crc32c_xorBytes {bs e : List UInt8} (h : bs.length = e.length) :
    crc32c (Crc.xorBytes bs e) = crc32c bs ^^^ Crc.update poly 0#32 e := by
  have hxor : Crc.update poly (~~~ 0#32 ^^^ 0#32) (Crc.xorBytes bs e) = _ :=
    Crc.update_xorBytes (~~~ 0#32) 0#32 h
  rw [BitVec.xor_zero] at hxor
  show ~~~ Crc.update poly (~~~ 0#32) (Crc.xorBytes bs e) = _
  rw [hxor, BitVec.not_xor_left]
  rfl

namespace Record

/-- A record as it is stored: whether it verifies is one checksum over what stands
behind the checksum field. -/
theorem verify_stored {c : List UInt8} (bs : List UInt8) (hc : c.length = 4) :
    verify ((c ++ bs).take headerLen) ((c ++ bs).drop headerLen)
        (parseHeader ((c ++ bs).take headerLen)).crc =
      (crc32c bs == BitVec.ofNat 32 (ofLe c)) := by
  have htake : (c ++ bs).take headerLen = c ++ bs.take 4 := by
    rw [List.take_append, hc, List.take_of_length_le (by rw [hc]; decide)]
    rfl
  have hdrop : (c ++ bs).drop headerLen = bs.drop 4 := by
    rw [List.drop_append, hc, List.drop_eq_nil_of_le (by rw [hc]; decide)]
    rfl
  have hfield : ((c ++ bs.take 4).drop lenOffset).take (headerLen - lenOffset) = bs.take 4 := by
    rw [List.drop_append, hc, List.drop_eq_nil_of_le (by rw [hc]; decide)]
    simp [lenOffset, headerLen, List.take_take]
  have hcrc : (c ++ bs.take 4).take 4 = c := by
    rw [List.take_append, hc, List.take_of_length_le (by rw [hc])]
    simp
  rw [htake, hdrop, verify, hfield, ← crc32c_append, List.take_append_drop, parseHeader, hcrc]

/-- The stored bytes of a record with the bits of `e` turned over, in the length field
and the payload. -/
def damage (stored e : List UInt8) : List UInt8 := Crc.xorBytes stored ([0, 0, 0, 0] ++ e)

/-- The stored bytes of a record with `c` in the place of its checksum. -/
def withChecksum (stored c : List UInt8) : List UInt8 := c ++ stored.drop lenOffset

theorem damage_frame {p e : List UInt8} :
    damage (frame p) e = toLe 4 (crc32c (body p)).toNat ++ Crc.xorBytes (body p) e := by
  have hkept := Crc.xorBytes_zeros (toLe 4 (crc32c (body p)).toNat)
  rw [toLe_length] at hkept
  rw [damage, frame_eq, Crc.xorBytes, List.zipWith_append (by rw [toLe_length]; rfl)]
  congr 1

/-- A record with a burst of at most 32 bits in its length field and payload, or with
any change of its checksum field alone, does not verify. -/
theorem verify_damaged_eq_false (buf p : List UInt8) :
    (∀ e : List UInt8, e.length = 4 + p.length → Crc.Burst 32 e →
        verify ((damage (encode buf p) e).take headerLen) ((damage (encode buf p) e).drop headerLen)
          (parseHeader ((damage (encode buf p) e).take headerLen)).crc = false) ∧
      ∀ c : List UInt8, c.length = 4 → c ≠ (encode buf p).take lenOffset →
        verify ((withChecksum (encode buf p) c).take headerLen)
          ((withChecksum (encode buf p) c).drop headerLen)
          (parseHeader ((withChecksum (encode buf p) c).take headerLen)).crc = false := by
  have hbody : (body p).length = 4 + p.length := by
    rw [body, List.length_append, toLe_length]
  have hstored : ∀ crc : BitVec 32, BitVec.ofNat 32 (ofLe (toLe 4 crc.toNat)) = crc := by
    intro crc
    rw [ofLe_toLe_of_lt crc.isLt, BitVec.ofNat_toNat, BitVec.setWidth_eq]
  rw [encode_eq_frame]
  constructor
  · intro e he hburst
    have hne : Crc.update poly 0#32 e ≠ 0#32 :=
      Crc.update_burst_ne (by decide) (Nat.le_refl 32) (by decide) hburst
    have hlen : (Crc.xorBytes (body p) e).length = 4 + p.length := by
      rw [Crc.xorBytes, List.length_zipWith, hbody, he, Nat.min_self]
    rw [damage_frame, verify_stored _ (toLe_length _ _), hstored,
      crc32c_xorBytes (by omega), beq_eq_false_iff_ne]
    intro heq
    exact hne ((BitVec.xor_right_inj _).mp (heq.trans BitVec.xor_zero.symm))
  · intro c hc hne
    rw [frame_eq, lenOffset, List.take_left' (toLe_length _ _)] at hne
    rw [withChecksum, frame_eq, lenOffset, List.drop_left' (toLe_length _ _),
      verify_stored _ hc, beq_eq_false_iff_ne]
    intro heq
    apply hne
    have hlt : ofLe c < 2 ^ 32 := by
      have := ofLe_lt c
      rw [hc] at this
      exact this
    have hdigits := toLe_ofLe c
    rw [hc] at hdigits
    rw [heq, BitVec.toNat_ofNat, Nat.mod_eq_of_lt hlt, hdigits]

/-- A burst over the border of the length field and the payload, and one changed byte of
the checksum. -/
theorem verify_damaged_eq_false_across :
    Crc.Burst 32 [0, 0, 0, 0x80, 1, 0xFF] ∧ [0, 0, 0, 1] ≠ (encode [] [5, 6]).take lenOffset ∧
      verify ((damage (encode [] [5, 6]) [0, 0, 0, 0x80, 1, 0xFF]).take headerLen)
        ((damage (encode [] [5, 6]) [0, 0, 0, 0x80, 1, 0xFF]).drop headerLen)
        (parseHeader ((damage (encode [] [5, 6]) [0, 0, 0, 0x80, 1, 0xFF]).take headerLen)).crc =
        false ∧
      verify ((withChecksum (encode [] [5, 6]) [0, 0, 0, 1]).take headerLen)
        ((withChecksum (encode [] [5, 6]) [0, 0, 0, 1]).drop headerLen)
        (parseHeader ((withChecksum (encode [] [5, 6]) [0, 0, 0, 1]).take headerLen)).crc =
        false := by
  have hburst : Crc.Burst 32 [0, 0, 0, 0x80, 1, 0xFF] := by decide +kernel
  have hne : [0, 0, 0, 1] ≠ (encode [] [5, 6]).take lenOffset := by decide +kernel
  exact ⟨hburst, hne, (verify_damaged_eq_false [] [5, 6]).1 _ rfl hburst,
    (verify_damaged_eq_false [] [5, 6]).2 _ rfl hne⟩

end Record
end WalDb
