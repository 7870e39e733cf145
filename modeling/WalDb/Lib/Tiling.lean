/-
Consecutive intervals.

A list of spans tiles `[b, t)` when each span starts where the one before it
ends, the first at `b`, and the last ends at `t`.  Spans of a tiling are disjoint,
and a span starts at every boundary short of the end.  The facts below are all
that a proof about offsets handed out in order needs.
-/
import Mathlib.Data.List.Basic

namespace WalDb
namespace Lib

/-- The half-open interval `[lo, hi)`. -/
structure Span where
  lo : Nat
  hi : Nat
  deriving DecidableEq, Repr

/-- The spans follow one another from `b` to `t`, none of them empty. -/
def Tiles : Nat → List Span → Nat → Prop
  | b, [], t => b = t
  | b, r :: rs, t => r.lo = b ∧ r.lo < r.hi ∧ Tiles r.hi rs t

instance decidableTiles : ∀ b rs t, Decidable (Tiles b rs t)
  | b, [], t => inferInstanceAs (Decidable (b = t))
  | b, r :: rs, t =>
      have := decidableTiles r.hi rs t
      inferInstanceAs (Decidable (r.lo = b ∧ r.lo < r.hi ∧ Tiles r.hi rs t))

namespace Tiles

variable {b t : Nat} {rs : List Span}

theorem append {c : Nat} {qs : List Span} (h : Tiles b rs c) (h' : Tiles c qs t) :
    Tiles b (rs ++ qs) t := by
  induction rs generalizing b with
  | nil =>
      cases h
      exact h'
  | cons r rs ih => exact ⟨h.1, h.2.1, ih h.2.2⟩

theorem le (h : Tiles b rs t) : b ≤ t := by
  induction rs generalizing b with
  | nil => exact Nat.le_of_eq h
  | cons r rs ih =>
      obtain ⟨h1, h2, h3⟩ := h
      have := ih h3
      omega

theorem bounds {r : Span} (h : Tiles b rs t) (hr : r ∈ rs) : b ≤ r.lo ∧ r.lo < r.hi ∧ r.hi ≤ t := by
  induction rs generalizing b with
  | nil => cases hr
  | cons q rs ih =>
      obtain ⟨h1, h2, h3⟩ := h
      rcases List.mem_cons.mp hr with rfl | hr
      · have := h3.le
        omega
      · have := ih h3 hr
        omega

/-- Two spans of a tiling are equal or do not meet. -/
theorem disjoint {q r : Span} (h : Tiles b rs t) (hq : q ∈ rs) (hr : r ∈ rs) :
    q = r ∨ q.hi ≤ r.lo ∨ r.hi ≤ q.lo := by
  induction rs generalizing b with
  | nil => cases hq
  | cons p rs ih =>
      obtain ⟨h1, h2, h3⟩ := h
      rcases List.mem_cons.mp hq with hqp | hq' <;> rcases List.mem_cons.mp hr with hrp | hr'
      · exact Or.inl (hqp.trans hrp.symm)
      · exact Or.inr (Or.inl (hqp ▸ (h3.bounds hr').1))
      · exact Or.inr (Or.inr (hrp ▸ (h3.bounds hq').1))
      · exact ih h3 hq' hr'

theorem eq_of_lo {q r : Span} (h : Tiles b rs t) (hq : q ∈ rs) (hr : r ∈ rs)
    (heq : q.lo = r.lo) : q = r := by
  have h1 := h.bounds hq
  have h2 := h.bounds hr
  rcases h.disjoint hq hr with h' | h' | h'
  · exact h'
  · omega
  · omega

/-- A span that starts before another ends before it. -/
theorem hi_le_of_lo_lt {q r : Span} (h : Tiles b rs t) (hq : q ∈ rs) (hr : r ∈ rs)
    (hlt : q.lo < r.lo) : q.hi ≤ r.lo := by
  have h2 := h.bounds hr
  rcases h.disjoint hq hr with rfl | h' | h'
  · omega
  · exact h'
  · omega

/-- The end of a tiling is a boundary. -/
theorem end_boundary (h : Tiles b rs t) : t = b ∨ ∃ r ∈ rs, r.hi = t := by
  induction rs generalizing b with
  | nil => exact Or.inl h.symm
  | cons r rs ih =>
      rcases ih h.2.2 with heq | ⟨q, hq, heq⟩
      · exact Or.inr ⟨r, List.mem_cons_self, heq.symm⟩
      · exact Or.inr ⟨q, List.mem_cons_of_mem _ hq, heq⟩

/-- A span starts at every boundary short of the end. -/
theorem exists_lo {c : Nat} (h : Tiles b rs t) (hc : c = b ∨ ∃ r ∈ rs, r.hi = c) (hlt : c < t) :
    ∃ r ∈ rs, r.lo = c := by
  induction rs generalizing b with
  | nil =>
      have hend : b = t := h
      rcases hc with heq | ⟨r, hr, -⟩
      · omega
      · cases hr
  | cons r rs ih =>
      obtain ⟨h1, h2, h3⟩ := h
      rcases hc with heq | ⟨q, hq, heq⟩
      · exact ⟨r, List.mem_cons_self, h1.trans heq.symm⟩
      · have hrest : c = r.hi ∨ ∃ p ∈ rs, p.hi = c := by
          rcases List.mem_cons.mp hq with hqr | hq
          · exact Or.inl (hqr ▸ heq.symm)
          · exact Or.inr ⟨q, hq, heq⟩
        obtain ⟨p, hp, hlo⟩ := ih h3 hrest
        exact ⟨p, List.mem_cons_of_mem _ hp, hlo⟩

/-- Every offset of the tiled range lies in a span. -/
theorem exists_mem {o : Nat} (h : Tiles b rs t) (hlo : b ≤ o) (hhi : o < t) :
    ∃ r ∈ rs, r.lo ≤ o ∧ o < r.hi := by
  induction rs generalizing b with
  | nil =>
      have : b = t := h
      omega
  | cons r rs ih =>
      obtain ⟨h1, h2, h3⟩ := h
      by_cases ho : o < r.hi
      · exact ⟨r, List.mem_cons_self, by omega, ho⟩
      · obtain ⟨q, hq, hq'⟩ := ih h3 (by omega)
        exact ⟨q, List.mem_cons_of_mem _ hq, hq'⟩

end Tiles
end Lib
end WalDb
