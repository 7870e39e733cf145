/-
Decimal numerals of a fixed width, as bytes.

A number is printed with leading zeros up to a width and read back digit by digit
with every step checked against a bound.  At one width the digits and the number
determine each other, which is what makes a name built from a padded number
unambiguous; the bound cuts the numerals off that the width would still allow.
-/
import Mathlib.Data.List.Induction
import Mathlib.Data.Nat.Digits.Defs

namespace WalDb
namespace Lib
namespace Decimal

def isAsciiDigit (b : UInt8) : Bool := 0x30 ≤ b.toNat && b.toNat ≤ 0x39

def digit (b : UInt8) : Nat := b.toNat - 0x30

/-- What a string of digits stands for. -/
def value (s : List UInt8) : Nat := Nat.ofDigits 10 (s.reverse.map digit)

/-- `n` in decimal, with zeros in front up to `width`. -/
def padded (width n : Nat) : List Char := (Nat.toDigits 10 n).leftpad width '0'

/-- One more digit, by a multiplication and an addition that both give up when they
reach `bound`. -/
def readDigit (bound acc : Nat) (b : UInt8) : Option Nat :=
  if isAsciiDigit b then
    if acc * 10 < bound then
      if acc * 10 + digit b < bound then some (acc * 10 + digit b) else none
    else none
  else none

/-- Read digits from the left. -/
def read (bound : Nat) (s : List UInt8) : Option Nat := s.foldlM (readDigit bound) 0

theorem digit_lt {b : UInt8} (h : isAsciiDigit b) : digit b < 10 := by
  simp only [isAsciiDigit, Bool.and_eq_true, decide_eq_true_eq] at h
  unfold digit
  omega

theorem digit_inj {b c : UInt8} (hb : isAsciiDigit b) (hc : isAsciiDigit c)
    (h : digit b = digit c) : b = c := by
  simp only [isAsciiDigit, Bool.and_eq_true, decide_eq_true_eq] at hb hc
  unfold digit at h
  exact UInt8.toNat_inj.mp (by omega)

@[simp] theorem value_nil : value [] = 0 := rfl

theorem value_concat (s : List UInt8) (b : UInt8) :
    value (s ++ [b]) = 10 * value s + digit b := by
  simp only [value, List.reverse_append, List.reverse_cons, List.reverse_nil, List.nil_append,
    List.singleton_append, List.map_cons, Nat.ofDigits_cons]
  omega

theorem mem_digits {s : List UInt8} (h : ∀ b ∈ s, isAsciiDigit b) :
    ∀ d ∈ s.reverse.map digit, d < 10 := by
  intro d hd
  simp only [List.mem_map, List.mem_reverse] at hd
  obtain ⟨b, hb, rfl⟩ := hd
  exact digit_lt (h b hb)

theorem value_lt {s : List UInt8} (h : ∀ b ∈ s, isAsciiDigit b) : value s < 10 ^ s.length := by
  have := Nat.ofDigits_lt_base_pow_length (by decide) (mem_digits h)
  simpa [value] using this

/-- At one length the digits are determined by the number. -/
theorem value_inj {s t : List UInt8} (hs : ∀ b ∈ s, isAsciiDigit b)
    (ht : ∀ b ∈ t, isAsciiDigit b) (hlen : s.length = t.length) (h : value s = value t) :
    s = t := by
  have hmap : s.reverse.map digit = t.reverse.map digit :=
    Nat.ofDigits_inj_of_len_eq (by decide) (by simpa using hlen) (mem_digits hs) (mem_digits ht) h
  rw [List.map_reverse, List.map_reverse, List.reverse_inj] at hmap
  have hbytes : ∀ i (hi : i < s.length) (hj : i < t.length), s[i] = t[i] := by
    intro i hi hj
    have hd : (s.map digit)[i]? = (t.map digit)[i]? := by rw [hmap]
    simp only [List.getElem?_map, List.getElem?_eq_getElem hi, List.getElem?_eq_getElem hj,
      Option.map_some, Option.some.injEq] at hd
    exact digit_inj (hs _ (List.getElem_mem hi)) (ht _ (List.getElem_mem hj)) hd
  exact List.ext_getElem hlen hbytes

theorem readDigit_eq (bound acc : Nat) {b : UInt8} (h : isAsciiDigit b) :
    readDigit bound acc b =
      if 10 * acc + digit b < bound then some (10 * acc + digit b) else none := by
  rw [readDigit, if_pos h, Nat.mul_comm acc 10]
  by_cases htens : 10 * acc < bound
  · rw [if_pos htens]
  · rw [if_neg htens, if_neg (by omega)]

/-- A checked read gives the number exactly when it stays below the bound: a step that
passes it can only be followed by larger numbers. -/
theorem read_eq (bound : Nat) (hb : 0 < bound) {s : List UInt8} (h : ∀ b ∈ s, isAsciiDigit b) :
    read bound s = if value s < bound then some (value s) else none := by
  induction s using List.reverseRecOn with
  | nil => simp [read, hb]
  | append_singleton s b ih =>
      have hs := ih fun c hc => h c (List.mem_append_left _ hc)
      have hd : isAsciiDigit b = true := h b (by simp)
      unfold read at hs ⊢
      rw [List.foldlM_append, hs, value_concat]
      by_cases hv : value s < bound
      · simp [hv, readDigit_eq bound (value s) hd]
      · rw [if_neg hv, if_neg (by omega)]
        rfl

/-- The bytes of characters that are all ASCII. -/
def asciiBytes (s : List Char) : List UInt8 := s.map fun c => UInt8.ofNat c.toNat

theorem toNat_of_isDigit {c : Char} (h : c.isDigit) : 0x30 ≤ c.toNat ∧ c.toNat ≤ 0x39 := by
  simp only [Char.isDigit, ge_iff_le, Bool.and_eq_true, decide_eq_true_eq] at h
  exact ⟨UInt32.le_iff_toNat_le.mp h.1, UInt32.le_iff_toNat_le.mp h.2⟩

theorem isAsciiDigit_ofNat {c : Char} (h : c.isDigit) : isAsciiDigit (UInt8.ofNat c.toNat) := by
  have := toNat_of_isDigit h
  simp only [isAsciiDigit, UInt8.toNat_ofNat', Bool.and_eq_true, decide_eq_true_eq]
  omega

theorem isDigit_of_mem_padded {width n : Nat} {c : Char} (h : c ∈ padded width n) : c.isDigit := by
  simp only [padded, List.leftpad, List.mem_append, List.mem_replicate] at h
  cases h with
  | inl hz => rw [hz.2]; decide
  | inr hd => exact Nat.isDigit_of_mem_toDigits (by decide) (by decide) hd

theorem isAsciiDigit_padded (width n : Nat) :
    ∀ b ∈ asciiBytes (padded width n), isAsciiDigit b := by
  intro b hb
  simp only [asciiBytes, List.mem_map] at hb
  obtain ⟨c, hc, rfl⟩ := hb
  exact isAsciiDigit_ofNat (isDigit_of_mem_padded hc)

theorem length_padded {width n : Nat} (hw : 0 < width) (h : n < 10 ^ width) :
    (asciiBytes (padded width n)).length = width := by
  have := (Nat.length_toDigits_le_iff (by decide) hw).mpr h
  simp only [asciiBytes, padded, List.length_map, List.length_leftpad]
  omega

theorem value_toDigits (n : Nat) : value (asciiBytes (Nat.toDigits 10 n)) = n := by
  induction n using Nat.strong_induction_on with
  | _ n ih =>
      have hlast : digit (UInt8.ofNat (n % 10).digitChar.toNat) = n % 10 := by
        rw [Nat.toNat_digitChar_of_lt_ten (Nat.mod_lt n (by decide)), digit, UInt8.toNat_ofNat']
        omega
      by_cases hn : n < 10
      · rw [Nat.toDigits_of_lt_base hn]
        rw [Nat.mod_eq_of_lt hn] at hlast
        simpa [asciiBytes, value] using hlast
      · rw [Nat.toDigits_of_base_le (by decide) (by omega), asciiBytes, List.map_append,
          List.map_cons, List.map_nil, value_concat, ← asciiBytes, ih (n / 10) (by omega), hlast]
        omega

theorem value_padded (width n : Nat) : value (asciiBytes (padded width n)) = n := by
  have hzero : ∀ k : Nat, ∀ s : List UInt8, value (List.replicate k 0x30 ++ s) = value s := by
    intro k s
    have hd : digit 0x30 = 0 := rfl
    rw [value, List.reverse_append, List.map_append, List.reverse_replicate, List.map_replicate,
      hd, Nat.ofDigits_append_replicate_zero, value]
  have hpad : asciiBytes (padded width n) =
      List.replicate (width - (Nat.toDigits 10 n).length) 0x30 ++
        asciiBytes (Nat.toDigits 10 n) := by
    simp [asciiBytes, padded, List.leftpad]
  rw [hpad, hzero, value_toDigits]

/-- Printing what was read gives the digits back. -/
theorem padded_value {s : List UInt8} (hw : 0 < s.length) (h : ∀ b ∈ s, isAsciiDigit b) :
    asciiBytes (padded s.length (value s)) = s := by
  refine value_inj (isAsciiDigit_padded _ _) h ?_ (value_padded _ _)
  exact length_padded hw (value_lt h)

end Decimal
end Lib
end WalDb
