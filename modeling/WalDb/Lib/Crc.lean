/-
A reflected cyclic redundancy check, over any register width and polynomial.

`update poly r bs` feeds the bytes `bs` through the register `r`.  Everything
the callers need follows from one fact: the register step is linear, so the
register after `bs` splits into what the incoming register contributes, which
is `bs.length` zero bytes' worth of shifting, and what the bytes contribute
(`update_xor`).
-/
import WalDb.Lib.XorLinear

namespace WalDb
namespace Lib
namespace Crc

variable {w : Nat} (poly : BitVec w)

/-- One zero bit through the reflected register: bit 0 feeds the polynomial
back, every other bit moves down one place. -/
def bitStep (r : BitVec w) : BitVec w :=
  if r.getLsbD 0 then (r >>> 1) ^^^ poly else r >>> 1

/-- Eight zero bits through the register. -/
def zeroByte (r : BitVec w) : BitVec w := (bitStep poly)^[8] r

def byteStep (r : BitVec w) (b : UInt8) : BitVec w :=
  zeroByte poly (r ^^^ b.toBitVec.setWidth w)

def update (r : BitVec w) (bs : List UInt8) : BitVec w :=
  bs.foldl (byteStep poly) r

theorem bitStep_xorLinear : XorLinear (bitStep poly) := by
  intro x y
  simp only [bitStep, BitVec.getLsbD_xor, BitVec.ushiftRight_xor_distrib]
  cases x.getLsbD 0 <;> cases y.getLsbD 0
  · simp
  · simp [BitVec.xor_assoc]
  · simp only [Bool.true_xor, Bool.not_false, if_true, Bool.false_eq_true, if_false]
    rw [BitVec.xor_assoc, BitVec.xor_assoc, BitVec.xor_comm (y >>> 1) poly]
  · simp only [Bool.true_xor, Bool.not_true, Bool.false_eq_true, if_false, if_true]
    rw [BitVec.xor_assoc, ← BitVec.xor_assoc poly, BitVec.xor_comm poly (y >>> 1),
      BitVec.xor_assoc (y >>> 1), BitVec.xor_self, BitVec.xor_zero]

theorem zeroByte_xorLinear : XorLinear (zeroByte poly) :=
  (bitStep_xorLinear poly).iterate 8

@[simp] theorem update_nil (r : BitVec w) : update poly r [] = r := rfl

theorem update_cons (r : BitVec w) (b : UInt8) (bs : List UInt8) :
    update poly r (b :: bs) = update poly (byteStep poly r b) bs := rfl

theorem update_append (r : BitVec w) (as bs : List UInt8) :
    update poly r (as ++ bs) = update poly (update poly r as) bs := by
  simp only [update, List.foldl_append]

/-- Zero bytes only shift the register. -/
theorem update_zeros (r : BitVec w) (n : Nat) :
    update poly r (List.replicate n 0) = (zeroByte poly)^[n] r := by
  induction n generalizing r with
  | zero => rfl
  | succ n ih =>
      have hzero : byteStep poly r 0 = zeroByte poly r := by simp [byteStep]
      rw [List.replicate_succ, update_cons, hzero, ih, Function.iterate_succ_apply]

/-- What the incoming register contributes is the same register shifted over as
many zero bytes as there are bytes. -/
theorem update_xor (r q : BitVec w) (bs : List UInt8) :
    update poly (r ^^^ q) bs =
      (zeroByte poly)^[bs.length] r ^^^ update poly q bs := by
  induction bs generalizing r q with
  | nil => rfl
  | cons b bs ih =>
      have hstep : byteStep poly (r ^^^ q) b = zeroByte poly r ^^^ byteStep poly q b := by
        unfold byteStep
        rw [BitVec.xor_assoc, zeroByte_xorLinear]
      rw [update_cons, update_cons, hstep, ih, List.length_cons, Function.iterate_succ,
        Function.comp_apply]

end Crc
end Lib
end WalDb
