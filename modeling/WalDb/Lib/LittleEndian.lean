/-
Little-endian digits of a natural number.

`toLe n x` is the `n` lowest base-256 digits of `x`, least significant first,
and `ofLe` reads such a list back.  Truncation is built in: `toLe n x` depends
on `x` only modulo `256 ^ n`, which is what a narrowing integer cast does.
-/
import Mathlib.Tactic.Ring

namespace WalDb
namespace Lib

def toLe : Nat → Nat → List UInt8
  | 0, _ => []
  | n + 1, x => UInt8.ofNat x :: toLe n (x / 256)

def ofLe : List UInt8 → Nat
  | [] => 0
  | b :: bs => b.toNat + 256 * ofLe bs

@[simp] theorem toLe_length (n x : Nat) : (toLe n x).length = n := by
  induction n generalizing x with
  | zero => rfl
  | succ n ih => simp [toLe, ih]

theorem ofLe_lt (bs : List UInt8) : ofLe bs < 256 ^ bs.length := by
  induction bs with
  | nil => simp [ofLe]
  | cons b bs ih =>
      have hb : b.toNat < 256 := b.toNat_lt
      simp only [ofLe, List.length_cons, Nat.pow_succ]
      omega

theorem ofLe_toLe (n x : Nat) : ofLe (toLe n x) = x % 256 ^ n := by
  induction n generalizing x with
  | zero => simp [toLe, ofLe, Nat.mod_one]
  | succ n ih =>
      simp only [toLe, ofLe, ih]
      rw [Nat.pow_succ', Nat.mod_mul]
      simp

theorem ofLe_toLe_of_lt {n x : Nat} (h : x < 256 ^ n) : ofLe (toLe n x) = x := by
  rw [ofLe_toLe, Nat.mod_eq_of_lt h]

/-- A list of digits is the expansion of its own value. -/
theorem toLe_ofLe (bs : List UInt8) : toLe bs.length (ofLe bs) = bs := by
  induction bs with
  | nil => rfl
  | cons b bs ih =>
      have hb : b.toNat < 256 := b.toNat_lt
      have hdiv : (b.toNat + 256 * ofLe bs) / 256 = ofLe bs := by omega
      have hlow : UInt8.ofNat (b.toNat + 256 * ofLe bs) = b := by
        apply UInt8.toNat_inj.mp
        simp
      simp only [List.length_cons, ofLe, toLe, hdiv, ih, hlow]

end Lib
end WalDb
