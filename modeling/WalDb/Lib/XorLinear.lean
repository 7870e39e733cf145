/-
Linear maps on bit vectors over the two-element field.

A map is linear when it distributes over exclusive or.  Such a map is fixed by
its values on the single-bit vectors, its columns, and applying it to a vector
is the exclusive or of the columns the vector's set bits select.
`XorLinear.split_low` is that statement peeled one bit at a time, in the form a
shift-and-test loop consumes it.
-/
import Mathlib.Algebra.Group.Nat.Defs
import Mathlib.Logic.Function.Iterate

namespace WalDb
namespace Lib

variable {w : Nat}

/-- Distributes over exclusive or. -/
def XorLinear (f : BitVec w → BitVec w) : Prop :=
  ∀ x y, f (x ^^^ y) = f x ^^^ f y

theorem xorLinear_id : XorLinear (id : BitVec w → BitVec w) := fun _ _ => rfl

namespace XorLinear

variable {f g : BitVec w → BitVec w}

theorem map_zero (hf : XorLinear f) : f 0#w = 0#w := by
  have h := hf 0#w 0#w
  rw [BitVec.xor_self, BitVec.xor_self] at h
  exact h

theorem comp (hf : XorLinear f) (hg : XorLinear g) : XorLinear (f ∘ g) := by
  intro x y
  show f (g (x ^^^ y)) = f (g x) ^^^ f (g y)
  rw [hg x y, hf]

theorem iterate (hf : XorLinear f) (n : Nat) : XorLinear f^[n] := by
  induction n with
  | zero => exact xorLinear_id
  | succ n ih =>
      rw [Function.iterate_succ]
      exact ih.comp hf

end XorLinear

/-- The images of the single-bit vectors: column `i` is the image of bit `i`. -/
def columns (f : BitVec w → BitVec w) : Vector (BitVec w) w :=
  Vector.ofFn fun i => f (BitVec.twoPow w i)

theorem columns_get (f : BitVec w → BitVec w) (i : Nat) (h : i < w) :
    (columns f)[i] = f (BitVec.twoPow w i) := by
  simp [columns]

/-- Bits above position `i` never meet bit `i`, so adding it sets it. -/
theorem ofNat_two_mul_add_one (u i : Nat) :
    BitVec.ofNat w ((2 * u + 1) * 2 ^ i) =
      BitVec.twoPow w i ^^^ BitVec.ofNat w (u * 2 ^ (i + 1)) := by
  have hnat : (2 * u + 1) * 2 ^ i = 2 ^ i ^^^ u * 2 ^ (i + 1) := by
    apply Nat.eq_of_testBit_eq
    intro b
    rw [Nat.testBit_xor, Nat.testBit_two_pow, Nat.testBit_mul_two_pow,
      Nat.testBit_mul_two_pow]
    rcases Nat.lt_trichotomy b i with hlt | heq | hgt
    · have h1 : ¬ i ≤ b := by omega
      have h2 : ¬ i + 1 ≤ b := by omega
      have h3 : i ≠ b := by omega
      simp [h1, h2, h3]
    · subst heq
      simp [Nat.testBit_zero]
    · have hsub : b - i = (b - (i + 1)) + 1 := by omega
      have h1 : i ≤ b := by omega
      have h2 : i + 1 ≤ b := hgt
      have h3 : i ≠ b := by omega
      have hhalf : (2 * u + 1) / 2 = u := by omega
      rw [hsub, Nat.testBit_succ, hhalf]
      simp [h1, h2, h3]
  rw [hnat]
  apply BitVec.eq_of_toNat_eq
  rw [BitVec.toNat_ofNat, BitVec.toNat_xor, BitVec.toNat_twoPow, BitVec.toNat_ofNat,
    Nat.xor_mod_two_pow]

/-- One round of a shift-and-test loop: the low bit of `v` selects column `i`,
and the remaining bits are the columns from `i + 1` on. -/
theorem XorLinear.split_low {f : BitVec w → BitVec w} (hf : XorLinear f) (v i : Nat) :
    f (BitVec.ofNat w (v * 2 ^ i)) =
      (if v % 2 = 1 then f (BitVec.twoPow w i) else 0#w) ^^^
        f (BitVec.ofNat w (v / 2 * 2 ^ (i + 1))) := by
  by_cases hv : v % 2 = 1
  · have hodd : v = 2 * (v / 2) + 1 := by omega
    have hsplit : v * 2 ^ i = (2 * (v / 2) + 1) * 2 ^ i := congrArg (· * 2 ^ i) hodd
    rw [hsplit, ofNat_two_mul_add_one, hf, if_pos hv]
  · have heven : v = v / 2 * 2 := by omega
    have hsplit : v * 2 ^ i = v / 2 * 2 ^ (i + 1) := by
      rw [Nat.pow_succ', ← Nat.mul_assoc, ← heven]
    rw [if_neg hv, hsplit, BitVec.zero_xor]

end Lib
end WalDb
