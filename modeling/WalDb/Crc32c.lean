/-
CRC32C, the checksum of the `crc32c` crate.

The crate is outside the repository.  Its two entry points are modelled as the
standard Castagnoli checksum: reflected polynomial `0x82F63B78`, initial value
and final exclusive or both `0xFFFFFFFF`.
-/
import WalDb.Lib.Crc

namespace WalDb

open Lib

/-- The Castagnoli polynomial, bit-reflected. -/
def poly : BitVec 32 := 0x82F63B78#32

/-- `crc32c::crc32c_append`: continue the finished checksum `crc` over `bs`. -/
def crc32cAppend (crc : BitVec 32) (bs : List UInt8) : BitVec 32 :=
  ~~~ Crc.update poly (~~~ crc) bs

/-- `crc32c::crc32c`. -/
def crc32c (bs : List UInt8) : BitVec 32 := crc32cAppend 0#32 bs

-- The check value of the standard: the checksum of the ASCII digits 1 to 9.
example : crc32c [0x31, 0x32, 0x33, 0x34, 0x35, 0x36, 0x37, 0x38, 0x39] = 0xE3069283#32 := by
  decide +kernel

@[simp] theorem crc32cAppend_nil (crc : BitVec 32) : crc32cAppend crc [] = crc := by
  simp [crc32cAppend]

theorem crc32cAppend_append (crc : BitVec 32) (as bs : List UInt8) :
    crc32cAppend crc (as ++ bs) = crc32cAppend (crc32cAppend crc as) bs := by
  simp [crc32cAppend, Crc.update_append]

/-- The streaming law: a checksum continued over more bytes is the checksum of
the concatenation. -/
theorem crc32c_append (as bs : List UInt8) :
    crc32c (as ++ bs) = crc32cAppend (crc32c as) bs := crc32cAppend_append _ as bs

@[simp] theorem crc32c_nil : crc32c [] = 0#32 := crc32cAppend_nil _

/-- The checksum of a concatenation from the checksums of its parts. -/
theorem crc32c_concat (as bs : List UInt8) :
    crc32c (as ++ bs) =
      (Crc.zeroByte poly)^[bs.length] (crc32c as) ^^^ crc32c bs := by
  have hones : ∀ x : BitVec 32, ~~~ x = x ^^^ ~~~ 0#32 := by
    intro x
    rw [BitVec.not_zero, BitVec.xor_allOnes]
  rw [crc32c_append]
  show ~~~ Crc.update poly (~~~ crc32c as) bs = _
  rw [hones (crc32c as), Crc.update_xor, BitVec.not_xor_right]
  rfl

end WalDb
