/-
Advancing a checksum over zero bytes (`strict.rs`: `zero_shift`, `gf2_times`,
`gf2_square`, `zero_byte_operators`).

A matrix is its 32 columns, column `i` the image of bit `i`.  Each loop shifts
its operand right until nothing is left; the bound on the operand that the loops
carry says how many bits can still be set, so the column and the operator they
index always exist.

`zeroShift_eq` is the result: the table of squarings computes the iterate of the
one-zero-byte step, for every length a `u64` holds.  `gf2TimesRun` and `zeroShiftRun` are
the same loops with each entry looked up as it is needed, which never fails.
-/
import WalDb.Crc32c

namespace WalDb
namespace Strict

open Lib

/-- A 32 by 32 matrix over GF(2), by columns. -/
abbrev Matrix := Vector (BitVec 32) 32

/-- The polynomial, bit-reflected. -/
def poly : BitVec 32 := 0x82F63B78#32

theorem index_lt {w i v : Nat} (h : v < 2 ^ (w - i)) (hv : v ≠ 0) : i < w := by
  by_contra hge
  rw [show w - i = 0 by omega] at h
  omega

theorem half_lt {w i v : Nat} (h : v < 2 ^ (w - i)) (hv : v ≠ 0) : v / 2 < 2 ^ (w - (i + 1)) := by
  have hi := index_lt h hv
  rw [show w - i = (w - (i + 1)) + 1 by omega, Nat.pow_succ] at h
  omega

theorem mul_two_pow_split (v i : Nat) :
    v * 2 ^ i = v / 2 * 2 ^ (i + 1) + v % 2 * 2 ^ i := by
  calc v * 2 ^ i
      = (v / 2 * 2 + v % 2) * 2 ^ i := by rw [Nat.div_add_mod']
    _ = v / 2 * 2 ^ (i + 1) + v % 2 * 2 ^ i := by
        rw [Nat.add_mul, Nat.pow_succ', Nat.mul_assoc]

/-- The loop of `gf2_times`, at column `i` with the bits left in `vector`. -/
def gf2TimesFrom (matrix : Matrix) (i vector : Nat) (h : vector < 2 ^ (32 - i))
    (sum : BitVec 32) : BitVec 32 :=
  if hv : vector = 0 then sum
  else
    have hi : i < 32 := index_lt h hv
    gf2TimesFrom matrix (i + 1) (vector / 2) (half_lt h hv)
      (if vector % 2 = 1 then sum ^^^ matrix[i] else sum)
termination_by vector

/-- Multiply `matrix` by `vector`. -/
def gf2Times (matrix : Matrix) (vector : BitVec 32) : BitVec 32 :=
  gf2TimesFrom matrix 0 vector.toNat vector.isLt 0#32

/-- Square a matrix: the operator applied twice. -/
def gf2Square (matrix : Matrix) : Matrix := Vector.ofFn fun n => gf2Times matrix matrix[n]

/-- One zero bit through the reflected register: bit 0 feeds the polynomial back,
every other bit moves down one place. -/
def oneBit : Matrix :=
  Vector.ofFn fun n => if n.val = 0 then poly else 1#32 <<< (n.val - 1)

/-- Entry `k` of the table, by repeated squaring. -/
def zeroByteOperator : Nat → Matrix
  | 0 =>
      let twoBits := gf2Square oneBit
      let fourBits := gf2Square twoBits
      gf2Square fourBits
  | k + 1 => gf2Square (zeroByteOperator k)

/-- `ZERO_BYTES`: entry `k` advances a checksum over `2^k` zero bytes. -/
def zeroByteOperators : Vector Matrix 64 := Vector.ofFn fun k => zeroByteOperator k

/-- The loop of `zero_shift`, at operator `k` with the bits left in `len`. -/
def zeroShiftFrom (k len : Nat) (h : len < 2 ^ (64 - k)) (crc : BitVec 32) : BitVec 32 :=
  if hl : len = 0 then crc
  else
    have hk : k < 64 := index_lt h hl
    zeroShiftFrom (k + 1) (len / 2) (half_lt h hl)
      (if len % 2 = 1 then gf2Times zeroByteOperators[k] crc else crc)
termination_by len

/-- Advance a checksum over `len` zero bytes. -/
def zeroShift (crc : BitVec 32) (len : BitVec 64) : BitVec 32 :=
  zeroShiftFrom 0 len.toNat len.isLt crc

/-! ## Matrices of linear maps -/

theorem gf2TimesFrom_columns {f : BitVec 32 → BitVec 32} (hf : XorLinear f) (i vector : Nat)
    (h : vector < 2 ^ (32 - i)) (sum : BitVec 32) :
    gf2TimesFrom (columns f) i vector h sum = sum ^^^ f (BitVec.ofNat 32 (vector * 2 ^ i)) := by
  induction vector using Nat.strongRecOn generalizing i sum with
  | ind vector ih =>
      rw [gf2TimesFrom]
      by_cases hv : vector = 0
      · rw [dif_pos hv, hv, Nat.zero_mul]
        rw [hf.map_zero, BitVec.xor_zero]
      · rw [dif_neg hv, ih (vector / 2) (by omega) (i + 1) (half_lt h hv), hf.split_low vector i,
          columns_get f i (index_lt h hv)]
        by_cases hb : vector % 2 = 1
        · rw [if_pos hb, if_pos hb, BitVec.xor_assoc]
        · rw [if_neg hb, if_neg hb, BitVec.zero_xor]

/-- Multiplying by the columns of a linear map applies the map. -/
theorem gf2Times_columns {f : BitVec 32 → BitVec 32} (hf : XorLinear f) (v : BitVec 32) :
    gf2Times (columns f) v = f v := by
  rw [gf2Times, gf2TimesFrom_columns hf, BitVec.zero_xor, Nat.pow_zero, Nat.mul_one,
    BitVec.ofNat_toNat, BitVec.setWidth_eq]

theorem gf2Square_columns {f : BitVec 32 → BitVec 32} (hf : XorLinear f) :
    gf2Square (columns f) = columns (f ∘ f) := by
  apply Vector.ext
  intro i hi
  rw [columns_get _ i hi]
  simp only [gf2Square, Vector.getElem_ofFn, Fin.getElem_fin, columns_get f i hi]
  exact gf2Times_columns hf _

/-! ## The table -/

theorem oneBit_eq : oneBit = columns (Crc.bitStep WalDb.poly) := by
  decide +kernel

theorem iterate_comp_self {α : Type} (f : α → α) (n : Nat) : f^[n] ∘ f^[n] = f^[2 * n] := by
  rw [← Function.iterate_add, Nat.two_mul]

/-- Entry `k` of the table advances over `2^k` zero bytes. -/
theorem zeroByteOperator_eq (k : Nat) :
    zeroByteOperator k = columns (Crc.zeroByte WalDb.poly)^[2 ^ k] := by
  have hbit := Crc.bitStep_xorLinear WalDb.poly
  have hbyte := Crc.zeroByte_xorLinear WalDb.poly
  induction k with
  | zero =>
      have h2 : gf2Square oneBit = columns (Crc.bitStep WalDb.poly)^[2] := by
        rw [oneBit_eq, gf2Square_columns hbit]
        rfl
      have h4 : gf2Square (gf2Square oneBit) = columns (Crc.bitStep WalDb.poly)^[4] := by
        rw [h2, gf2Square_columns (hbit.iterate 2), iterate_comp_self]
      show gf2Square (gf2Square (gf2Square oneBit)) = _
      rw [h4, gf2Square_columns (hbit.iterate 4), iterate_comp_self]
      rfl
  | succ k ih =>
      show gf2Square (zeroByteOperator k) = _
      rw [ih, gf2Square_columns (hbyte.iterate _), iterate_comp_self, Nat.pow_succ']

theorem zeroShiftFrom_eq (k len : Nat) (h : len < 2 ^ (64 - k)) (crc : BitVec 32) :
    zeroShiftFrom k len h crc = (Crc.zeroByte WalDb.poly)^[len * 2 ^ k] crc := by
  have hbyte := Crc.zeroByte_xorLinear WalDb.poly
  induction len using Nat.strongRecOn generalizing k crc with
  | ind len ih =>
      rw [zeroShiftFrom]
      by_cases hl : len = 0
      · rw [dif_pos hl, hl, Nat.zero_mul]
        rfl
      · have hk : k < 64 := index_lt h hl
        have hop : zeroByteOperators[k] = columns (Crc.zeroByte WalDb.poly)^[2 ^ k] := by
          simp only [zeroByteOperators, Vector.getElem_ofFn, zeroByteOperator_eq]
        rw [dif_neg hl, ih (len / 2) (by omega) (k + 1) (half_lt h hl), hop,
          gf2Times_columns (hbyte.iterate _)]
        -- The low bit of `len` decides whether this operator contributes.
        by_cases hb : len % 2 = 1
        · rw [if_pos hb, ← Function.iterate_add_apply]
          rw [mul_two_pow_split len k, hb, Nat.one_mul]
        · rw [if_neg hb, mul_two_pow_split len k, show len % 2 = 0 by omega, Nat.zero_mul]
          rfl

/-- The table and the loop over it compute the iterate of the zero-byte step. -/
theorem zeroShift_eq (crc : BitVec 32) {len : Nat} (h : len < 2 ^ 64) :
    zeroShift crc (BitVec.ofNat 64 len) = (Crc.zeroByte WalDb.poly)^[len] crc := by
  rw [zeroShift, zeroShiftFrom_eq, Nat.pow_zero, Nat.mul_one, BitVec.toNat_ofNat,
    Nat.mod_eq_of_lt h]

/-- The identity the prefix checksums rest on: the checksum of the second part,
from the checksums of the first part and of the whole. -/
theorem crc32c_span (as bs : List UInt8) (h : bs.length < 2 ^ 64) :
    crc32c (as ++ bs) ^^^ zeroShift (crc32c as) (BitVec.ofNat 64 bs.length) = crc32c bs := by
  rw [zeroShift_eq _ h, crc32c_concat, BitVec.xor_comm, ← BitVec.xor_assoc, BitVec.xor_self,
    BitVec.zero_xor]

/-! ## The look-ups -/

theorem toNat_half {w : Nat} (v : BitVec w) : (v >>> 1).toNat = v.toNat / 2 := by
  simp [Nat.shiftRight_eq_div_pow]

theorem toNat_ne_zero {w : Nat} {v : BitVec w} (hv : v ≠ 0#w) : v.toNat ≠ 0 :=
  fun h => hv (BitVec.eq_of_toNat_eq (by simpa using h))

theorem half_toNat_lt {w : Nat} {v : BitVec w} (hv : v ≠ 0#w) : (v >>> 1).toNat < v.toNat := by
  have := toNat_ne_zero hv
  rw [toNat_half]
  omega

theorem low_set_iff {w : Nat} (hw : 0 < w) (v : BitVec w) :
    v &&& 1#w = 1#w ↔ v.toNat % 2 = 1 := by
  have hone : (1#w).toNat = 1 := by
    rw [BitVec.toNat_ofNat, Nat.mod_eq_of_lt (Nat.one_lt_two_pow (by omega))]
  rw [← BitVec.toNat_inj, BitVec.toNat_and, hone, Nat.and_one_is_mod]

/-- `gf2_times` over words, with each column looked up at run time; `none` is an index out of
bounds. -/
def gf2TimesRun (matrix : List (BitVec 32)) (i : Nat) (vector sum : BitVec 32) :
    Option (BitVec 32) :=
  if _h : vector = 0#32 then some sum
  else if vector &&& 1#32 = 1#32 then
    (matrix[i]?).bind fun column => gf2TimesRun matrix (i + 1) (vector >>> 1) (sum ^^^ column)
  else gf2TimesRun matrix (i + 1) (vector >>> 1) sum
termination_by vector.toNat
decreasing_by all_goals exact half_toNat_lt _h

/-- `zero_shift` over words, with each operator looked up at run time. -/
def zeroShiftRun (table : List (List (BitVec 32))) (k : Nat) (crc : BitVec 32) (len : BitVec 64) :
    Option (BitVec 32) :=
  if _h : len = 0#64 then some crc
  else if len &&& 1#64 = 1#64 then
    (table[k]?).bind fun matrix => (gf2TimesRun matrix 0 crc 0#32).bind fun crc =>
      zeroShiftRun table (k + 1) crc (len >>> 1)
  else zeroShiftRun table (k + 1) crc (len >>> 1)
termination_by len.toNat
decreasing_by all_goals exact half_toNat_lt _h

/-- `ZERO_BYTES` as the arrays it is. -/
def zeroBytes : List (List (BitVec 32)) := zeroByteOperators.toList.map Vector.toList

/-- Every column that is looked up is there. -/
theorem gf2TimesRun_from (matrix : Matrix) {n i : Nat} (h : n < 2 ^ (32 - i))
    {vector : BitVec 32} (hn : vector.toNat = n) (sum : BitVec 32) :
    gf2TimesRun matrix.toList i vector sum = some (gf2TimesFrom matrix i n h sum) := by
  induction n using Nat.strongRecOn generalizing i vector sum with
  | ind n ih =>
      rw [gf2TimesRun, gf2TimesFrom]
      by_cases hv : vector = 0#32
      · subst hv
        subst hn
        rfl
      · have hpos : n ≠ 0 := hn ▸ toNat_ne_zero hv
        have hi := index_lt h hpos
        have hcolumn : matrix.toList[i]? = some matrix[i] := by simp [hi]
        rw [dif_neg hv, dif_neg hpos, hcolumn, Option.bind_some]
        dsimp only
        have hrest := ih (n / 2) (by omega) (half_lt h hpos) ((toNat_half vector).trans (by rw [hn]))
        by_cases hb : n % 2 = 1
        · rw [if_pos ((low_set_iff (by decide) vector).mpr (hn ▸ hb)), hrest, if_pos hb]
        · rw [if_neg fun hlow => hb (hn ▸ (low_set_iff (by decide) vector).mp hlow), hrest, if_neg hb]

theorem gf2TimesRun_eq (matrix : Matrix) (vector : BitVec 32) :
    gf2TimesRun matrix.toList 0 vector 0#32 = some (gf2Times matrix vector) :=
  gf2TimesRun_from matrix vector.isLt rfl 0#32

/-- Every operator that is looked up is there. -/
theorem zeroShiftRun_from {n k : Nat} (h : n < 2 ^ (64 - k)) {len : BitVec 64}
    (hn : len.toNat = n) (crc : BitVec 32) :
    zeroShiftRun zeroBytes k crc len = some (zeroShiftFrom k n h crc) := by
  induction n using Nat.strongRecOn generalizing k len crc with
  | ind n ih =>
      rw [zeroShiftRun, zeroShiftFrom]
      by_cases hl : len = 0#64
      · subst hl
        subst hn
        rfl
      · have hpos : n ≠ 0 := hn ▸ toNat_ne_zero hl
        have hk := index_lt h hpos
        have hentry : zeroBytes[k]? = some zeroByteOperators[k].toList := by
          simp [zeroBytes, hk]
        rw [dif_neg hl, dif_neg hpos, hentry, Option.bind_some, gf2TimesRun_eq, Option.bind_some]
        dsimp only
        have hrest := ih (n / 2) (by omega) (half_lt h hpos) ((toNat_half len).trans (by rw [hn]))
        by_cases hb : n % 2 = 1
        · rw [if_pos ((low_set_iff (by decide) len).mpr (hn ▸ hb)), hrest, if_pos hb]
        · rw [if_neg fun hlow => hb (hn ▸ (low_set_iff (by decide) len).mp hlow), hrest, if_neg hb]

theorem zeroShiftRun_eq (crc : BitVec 32) (len : BitVec 64) :
    zeroShiftRun zeroBytes 0 crc len = some (zeroShift crc len) :=
  zeroShiftRun_from len.isLt rfl crc

/-- Shifting over zeros is what concatenation does to a checksum, and entry `k` of the table
shifts the register over `2^k` zero bytes; no look-up in the table or in a matrix fails. -/
theorem zero_shift_concatenates :
    (∀ as bs : List UInt8, bs.length < 2 ^ 64 →
      ∃ shifted, zeroShiftRun zeroBytes 0 (crc32c as) (BitVec.ofNat 64 bs.length) = some shifted ∧
        crc32c (as ++ bs) = shifted ^^^ crc32c bs) ∧
    (∀ k < 64, ∃ matrix, zeroBytes[k]? = some matrix ∧
      ∀ register, gf2TimesRun matrix 0 register 0#32 =
        some (Crc.update WalDb.poly register (List.replicate (2 ^ k) 0))) ∧
    (∀ crc len, (zeroShiftRun zeroBytes 0 crc len).isSome = true) ∧
    ∀ (matrix : Matrix) (vector : BitVec 32),
      (gf2TimesRun matrix.toList 0 vector 0#32).isSome = true := by
  refine ⟨fun as bs hlen => ?_, fun k hk => ?_, fun crc len => ?_, fun matrix vector => ?_⟩
  · refine ⟨_, zeroShiftRun_eq _ _, ?_⟩
    rw [zeroShift_eq _ hlen, crc32c_concat]
  · refine ⟨zeroByteOperators[k].toList, by simp [zeroBytes, hk], fun register => ?_⟩
    rw [gf2TimesRun_eq, Crc.update_zeros]
    simp only [zeroByteOperators, Vector.getElem_ofFn, zeroByteOperator_eq]
    rw [gf2Times_columns ((Crc.zeroByte_xorLinear WalDb.poly).iterate _)]
  · rw [zeroShiftRun_eq]
    rfl
  · rw [gf2TimesRun_eq]
    rfl

/-- A short string after another. -/
theorem zero_shift_concatenates_short :
    ∃ shifted, zeroShiftRun zeroBytes 0 (crc32c [1, 2]) 3#64 = some shifted ∧
      crc32c [1, 2, 3, 4, 5] = shifted ^^^ crc32c [3, 4, 5] :=
  zero_shift_concatenates.1 [1, 2] [3, 4, 5] (by decide)

end Strict
end WalDb
