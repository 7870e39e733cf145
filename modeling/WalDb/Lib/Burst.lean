/-
Burst errors through a reflected cyclic redundancy check.

The register takes the bits of a string one at a time, the low bit of each byte
first; `bitAt` numbers them in that order.  As long as no more bits are fed than the
register is wide, feeding them is the same as adding them to the register all at
once and then shifting (`feed_eq`).  A burst is such a run of bits between zero
bits, and a polynomial with its top bit set makes the shift injective, so a burst
that fits the register never leaves it at zero (`update_burst_ne`).
-/
import Mathlib.Data.List.GetD
import WalDb.Lib.Crc

namespace WalDb
namespace Lib
namespace Crc

/-! ## Bits in the order of the register -/

/-- Bit `j` of a string. -/
def bitAt (bs : List UInt8) (j : Nat) : Bool := (bs[j / 8]?.getD 0).toBitVec.getLsbD (j % 8)

/-- Some bit is set, and all that are lie within `n` consecutive ones. -/
def Burst (n : Nat) (bs : List UInt8) : Prop :=
  (∃ j, bitAt bs j = true) ∧ ∃ k, ∀ j, bitAt bs j = true → k ≤ j ∧ j < k + n

theorem lt_of_bitAt {bs : List UInt8} {j : Nat} (h : bitAt bs j = true) : j < 8 * bs.length := by
  by_contra hj
  rw [bitAt, List.getElem?_eq_none (by omega)] at h
  simp at h

/-- Only the places within the string need a look. -/
theorem burst_iff (n : Nat) (bs : List UInt8) :
    Burst n bs ↔ (∃ j, j < 8 * bs.length ∧ bitAt bs j = true) ∧
      ∃ k, k < 8 * bs.length ∧
        ∀ j, j < 8 * bs.length → bitAt bs j = true → k ≤ j ∧ j < k + n := by
  constructor
  · intro ⟨⟨j, hj⟩, k, hk⟩
    exact ⟨⟨j, lt_of_bitAt hj, hj⟩, k, Nat.lt_of_le_of_lt (hk j hj).1 (lt_of_bitAt hj),
      fun i _ hi => hk i hi⟩
  · intro ⟨⟨j, _, hj⟩, k, _, hk⟩
    exact ⟨⟨j, hj⟩, k, fun i hi => hk i (lt_of_bitAt hi) hi⟩

instance (n : Nat) (bs : List UInt8) : Decidable (Burst n bs) :=
  decidable_of_iff _ (burst_iff n bs).symm

/-- The bits of a byte, the low one first. -/
def byteBits (b : UInt8) : List Bool := (List.range 8).map b.toBitVec.getLsbD

def bits (bs : List UInt8) : List Bool := bs.flatMap byteBits

theorem byteBits_length (b : UInt8) : (byteBits b).length = 8 := by
  rw [byteBits, List.length_map, List.length_range]

theorem byteBits_getD (b : UInt8) (j : Nat) : (byteBits b).getD j false = b.toBitVec.getLsbD j := by
  rw [byteBits, List.getD_eq_getElem?_getD, List.getElem?_map]
  by_cases hj : j < 8
  · rw [List.getElem?_range hj]
    rfl
  · rw [List.getElem?_eq_none (by rw [List.length_range]; omega),
      BitVec.getLsbD_of_ge _ _ (Nat.not_lt.mp hj)]
    rfl

theorem bits_getD (bs : List UInt8) (j : Nat) : (bits bs).getD j false = bitAt bs j := by
  induction bs generalizing j with
  | nil => simp [bits, bitAt]
  | cons b bs ih =>
      rw [List.getD_eq_getElem?_getD, bits, List.flatMap_cons]
      by_cases hj : j < 8
      · rw [List.getElem?_append_left (by rw [byteBits_length]; exact hj),
          ← List.getD_eq_getElem?_getD, byteBits_getD, bitAt, Nat.div_eq_of_lt hj,
          Nat.mod_eq_of_lt hj]
        rfl
      · have hdiv : j / 8 = (j - 8) / 8 + 1 := by omega
        have hmod : j % 8 = (j - 8) % 8 := by omega
        rw [List.getElem?_append_right (by rw [byteBits_length]; omega), byteBits_length,
          ← List.getD_eq_getElem?_getD]
        show (bits bs).getD (j - 8) false = _
        rw [ih, bitAt, bitAt, hdiv, hmod, List.getElem?_cons_succ]

/-! ## Feeding bits -/

variable {w : Nat} {poly : BitVec w}

/-- A register whose low bit is `b` and whose other bits are clear. -/
def lowBit (b : Bool) : BitVec w := (BitVec.ofBool b).setWidth w

/-- The bits `bs` through the register `r`. -/
def feed (poly : BitVec w) (r : BitVec w) (bs : List Bool) : BitVec w :=
  bs.foldl (fun r b => bitStep poly (r ^^^ lowBit b)) r

/-- The register that holds the bits `bs`, the first one lowest. -/
def ofBits : List Bool → BitVec w
  | [] => 0#w
  | b :: bs => ofBits bs <<< 1 ^^^ lowBit b

theorem getLsbD_ofBits (bs : List Bool) (i : Nat) :
    (ofBits bs : BitVec w).getLsbD i = (decide (i < w) && bs.getD i false) := by
  induction bs generalizing i with
  | nil => simp [ofBits]
  | cons b bs ih =>
      rw [ofBits, BitVec.getLsbD_xor, BitVec.getLsbD_shiftLeft, ih, lowBit, BitVec.getLsbD_setWidth]
      cases i with
      | zero => simp
      | succ i =>
          by_cases hi : i + 1 < w
          · have hlt : i < w := by omega
            simp [hi, hlt]
          · simp [hi]

/-- A register whose top bit is clear comes back when it has been shifted up. -/
theorem bitStep_shiftLeft {v : BitVec w} (h : v.msb = false) : bitStep poly (v <<< 1) = v := by
  have hlow : (v <<< 1).getLsbD 0 = false := by simp
  rw [bitStep, hlow, if_neg Bool.false_ne_true]
  apply BitVec.eq_of_getLsbD_eq
  intro i hi
  rw [BitVec.getLsbD_ushiftRight, BitVec.getLsbD_shiftLeft]
  by_cases htop : 1 + i < w
  · simp [htop]
  · have hmsb : v.getLsbD i = false := by
      rw [BitVec.msb_eq_getLsbD_last] at h
      rwa [show i = w - 1 by omega]
    simp [htop, hmsb]

theorem feed_append (r : BitVec w) (as bs : List Bool) :
    feed poly r (as ++ bs) = feed poly (feed poly r as) bs := List.foldl_append

/-- Zero bits only shift the register. -/
theorem feed_zeros (r : BitVec w) {bs : List Bool} (h : ∀ b ∈ bs, b = false) :
    feed poly r bs = (bitStep poly)^[bs.length] r := by
  induction bs generalizing r with
  | nil => rfl
  | cons b bs ih =>
      have hb : b = false := h b List.mem_cons_self
      have hlow : (lowBit false : BitVec w) = 0#w := by simp [lowBit]
      rw [List.length_cons, Function.iterate_succ_apply]
      show feed poly (bitStep poly (r ^^^ lowBit b)) bs = _
      rw [hb, hlow, BitVec.xor_zero, ih _ fun c hc => h c (List.mem_cons_of_mem b hc)]

/-- Bits that fit the register can be added to it before it is shifted. -/
theorem feed_eq (r : BitVec w) {bs : List Bool} (h : bs.length ≤ w) :
    feed poly r bs = (bitStep poly)^[bs.length] (r ^^^ ofBits bs) := by
  induction bs generalizing r with
  | nil => simp [feed, ofBits]
  | cons b bs ih =>
      rw [List.length_cons] at h
      -- The rest of the bits leave the top place free, so the first shift brings them down.
      have htop : (ofBits bs : BitVec w).msb = false := by
        rw [BitVec.msb_eq_getLsbD_last, getLsbD_ofBits, List.getD_eq_default _ _ (by omega),
          Bool.and_false]
      have hsplit : r ^^^ ofBits (b :: bs) = (r ^^^ lowBit b) ^^^ ofBits bs <<< 1 := by
        rw [ofBits, BitVec.xor_assoc, BitVec.xor_comm (lowBit b)]
      have hshift : bitStep poly ((r ^^^ lowBit b) ^^^ ofBits bs <<< 1) =
          bitStep poly (r ^^^ lowBit b) ^^^ ofBits bs := by
        rw [bitStep_xorLinear poly (r ^^^ lowBit b), bitStep_shiftLeft htop]
      show feed poly (bitStep poly (r ^^^ lowBit b)) bs = _
      rw [ih _ (by omega), List.length_cons, Function.iterate_succ_apply, hsplit, hshift]

theorem ofBits_byteBits (b : UInt8) : ofBits (byteBits b) = b.toBitVec.setWidth w := by
  apply BitVec.eq_of_getLsbD_eq
  intro i hi
  rw [getLsbD_ofBits, byteBits_getD, BitVec.getLsbD_setWidth]

theorem byteStep_eq_feed (hw : 8 ≤ w) (r : BitVec w) (b : UInt8) :
    byteStep poly r b = feed poly r (byteBits b) := by
  rw [feed_eq r (by rw [byteBits_length]; exact hw), byteBits_length, ofBits_byteBits]
  rfl

theorem update_eq_feed (hw : 8 ≤ w) (r : BitVec w) (bs : List UInt8) :
    update poly r bs = feed poly r (bits bs) := by
  induction bs generalizing r with
  | nil => rfl
  | cons b bs ih =>
      rw [update_cons, ih, byteStep_eq_feed hw, ← feed_append]
      rfl

/-! ## Differences of strings -/

/-- Byte by byte exclusive or. -/
def xorBytes (as bs : List UInt8) : List UInt8 := List.zipWith (· ^^^ ·) as bs

theorem xorBytes_zeros (bs : List UInt8) : xorBytes bs (List.replicate bs.length 0) = bs := by
  induction bs with
  | nil => rfl
  | cons b bs ih =>
      rw [List.length_cons, List.replicate_succ]
      show (b ^^^ 0) :: xorBytes bs (List.replicate bs.length 0) = _
      rw [ih, UInt8.xor_zero]

/-- The registers of two strings of one length differ by the register of their
difference. -/
theorem update_xorBytes (r q : BitVec w) {as bs : List UInt8} (h : as.length = bs.length) :
    update poly (r ^^^ q) (xorBytes as bs) = update poly r as ^^^ update poly q bs := by
  induction as generalizing r q bs with
  | nil =>
      rw [List.eq_nil_of_length_eq_zero h.symm]
      rfl
  | cons a as ih =>
      cases bs with
      | nil => cases h
      | cons b bs =>
          have hstep : byteStep poly (r ^^^ q) (a ^^^ b) =
              byteStep poly r a ^^^ byteStep poly q b := by
            unfold byteStep
            rw [← zeroByte_xorLinear, UInt8.toBitVec_xor, BitVec.setWidth_xor]
            congr 1
            ac_rfl
          rw [update_cons, update_cons, ← ih _ _ (Nat.succ.inj h), ← hstep]
          rfl

/-! ## Bursts -/

/-- With the top bit of the polynomial set, no register but zero is shifted to zero. -/
theorem bitStep_injective (hpoly : poly.msb = true) : Function.Injective (bitStep poly) := by
  have hker : ∀ r : BitVec w, bitStep poly r = 0#w → r = 0#w := by
    intro r h
    have hshift : (r >>> 1).msb = false := by
      rw [BitVec.msb_eq_getLsbD_last, BitVec.getLsbD_ushiftRight]
      exact BitVec.getLsbD_of_ge _ _ (by omega)
    unfold bitStep at h
    split at h
    · -- The polynomial would be a shifted register, but its top bit is set.
      rw [BitVec.xor_eq_zero_iff] at h
      rw [h, hpoly] at hshift
      cases hshift
    · rename_i hlow
      apply BitVec.eq_of_getLsbD_eq
      intro i _
      cases i with
      | zero => simpa using hlow
      | succ i =>
          have hbit := congrArg (fun v => v.getLsbD i) h
          rw [BitVec.getLsbD_ushiftRight, Nat.add_comm] at hbit
          simpa using hbit
  intro r q h
  have hdiff : bitStep poly (r ^^^ q) = 0#w := by
    rw [bitStep_xorLinear, h, BitVec.xor_self]
  exact BitVec.xor_eq_zero_iff.mp (hker _ hdiff)

/-- A burst that fits the register leaves it different from zero. -/
theorem update_burst_ne {n : Nat} (hw : 8 ≤ w) (hn : n ≤ w) (hpoly : poly.msb = true)
    {e : List UInt8} (he : Burst n e) : update poly 0#w e ≠ 0#w := by
  obtain ⟨⟨j, hj⟩, k, hk⟩ := he
  have hlin := bitStep_xorLinear poly
  rw [← bits_getD] at hj
  simp only [← bits_getD] at hk
  rw [update_eq_feed hw]
  generalize bits e = bs at hj hk
  -- The burst and the zero bits on either side of it.
  have hbefore : ∀ b ∈ bs.take k, b = false := by
    intro b hb
    obtain ⟨i, hi, rfl⟩ := List.mem_iff_getElem.mp hb
    by_contra hset
    rw [List.length_take] at hi
    have := hk i (by
      rw [List.getD_eq_getElem _ _ (by omega)]
      simpa using hset)
    omega
  have hafter : ∀ b ∈ (bs.drop k).drop n, b = false := by
    intro b hb
    rw [List.drop_drop] at hb
    obtain ⟨i, hi, rfl⟩ := List.mem_iff_getElem.mp hb
    by_contra hset
    rw [List.length_drop] at hi
    have := hk (k + n + i) (by
      rw [List.getD_eq_getElem _ _ (by omega)]
      simpa using hset)
    omega
  have hsplit : feed poly 0#w bs =
      (bitStep poly)^[((bs.drop k).drop n).length]
        ((bitStep poly)^[((bs.drop k).take n).length] (ofBits ((bs.drop k).take n))) := by
    conv => lhs; rw [← List.take_append_drop k bs, ← List.take_append_drop n (bs.drop k)]
    rw [feed_append, feed_append, feed_zeros _ hbefore, (hlin.iterate _).map_zero,
      feed_zeros _ hafter, feed_eq _ (Nat.le_trans (List.length_take_le _ _) hn),
      BitVec.zero_xor]
  intro hzero
  rw [hsplit, ← Function.iterate_add_apply,
    ← (hlin.iterate (((bs.drop k).drop n).length + ((bs.drop k).take n).length)).map_zero] at hzero
  have hburst := congrArg (fun v => v.getLsbD (j - k)) ((bitStep_injective hpoly).iterate _ hzero)
  obtain ⟨hlo, hhi⟩ := hk j hj
  rw [getLsbD_ofBits, List.getD_eq_getElem?_getD, List.getElem?_take_of_lt (by omega),
    List.getElem?_drop, Nat.add_sub_cancel' hlo, ← List.getD_eq_getElem?_getD, hj,
    BitVec.getLsbD_zero] at hburst
  have hin : j - k < w := by omega
  simp [hin] at hburst

end Crc
end Lib
end WalDb
