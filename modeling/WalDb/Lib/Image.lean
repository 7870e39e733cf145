/-
Partial byte images and the bytes read from them.

An image gives each offset its byte, or nothing where no byte can be read.
`read` takes a whole range or nothing, so a read that meets an unreadable
offset yields no bytes at all.  Two images that agree on a range read the same
there, which is the form in which changes elsewhere are discarded.
-/
import Mathlib.Data.List.Basic

namespace WalDb
namespace Lib

/-- What can be read at each offset. -/
abbrev Image (α : Type) := Nat → Option α

namespace Image

variable {α : Type}

/-- The `n` values from `off` on, if every one of them is there. -/
def read (img : Image α) (off : Nat) : Nat → Option (List α)
  | 0 => some []
  | n + 1 => (img off).bind fun b => (read img (off + 1) n).map (b :: ·)

/-- The image of a list: offset `i` holds item `i`. -/
def ofList (data : List α) : Image α := fun o => data[o]?

/-- Pointwise description of a read, from which the other facts follow. -/
theorem read_eq_some_iff {img : Image α} {off n : Nat} {bs : List α} :
    img.read off n = some bs ↔ bs.length = n ∧ ∀ i, i < n → img (off + i) = bs[i]? := by
  induction n generalizing off bs with
  | zero =>
      constructor
      · intro h
        cases h
        exact ⟨rfl, fun i hi => absurd hi (Nat.not_lt_zero i)⟩
      · intro h
        rw [List.length_eq_zero_iff.mp h.1]
        rfl
  | succ n ih =>
      simp only [read, Option.bind_eq_some_iff, Option.map_eq_some_iff]
      constructor
      · rintro ⟨b, hb, cs, hcs, rfl⟩
        obtain ⟨hlen, hget⟩ := ih.mp hcs
        refine ⟨by simp [hlen], fun i hi => ?_⟩
        cases i with
        | zero => simpa using hb
        | succ i =>
            have h := hget i (by omega)
            rw [List.getElem?_cons_succ, ← h]
            congr 1
            omega
      · rintro ⟨hlen, hget⟩
        cases bs with
        | nil => simp at hlen
        | cons b cs =>
            refine ⟨b, by simpa using hget 0 (by omega), cs, ih.mpr ⟨by simpa using hlen, ?_⟩, rfl⟩
            intro i hi
            have h := hget (i + 1) (by omega)
            rw [List.getElem?_cons_succ] at h
            rw [← h]
            congr 1
            omega

theorem read_length {img : Image α} {off n : Nat} {bs : List α}
    (h : img.read off n = some bs) : bs.length = n := (read_eq_some_iff.mp h).1

@[simp] theorem read_zero (img : Image α) (off : Nat) : img.read off 0 = some [] := rfl

/-- Equal bytes at equal distances read the same. -/
theorem read_shift {img img' : Image α} {off off' n : Nat}
    (h : ∀ i, i < n → img (off + i) = img' (off' + i)) : img.read off n = img'.read off' n := by
  apply Option.ext
  intro bs
  rw [read_eq_some_iff, read_eq_some_iff]
  constructor
  · rintro ⟨hl, hget⟩
    exact ⟨hl, fun i hi => (h i hi).symm.trans (hget i hi)⟩
  · rintro ⟨hl, hget⟩
    exact ⟨hl, fun i hi => (h i hi).trans (hget i hi)⟩

theorem read_congr {img img' : Image α} {off n : Nat}
    (h : ∀ i, i < n → img (off + i) = img' (off + i)) : img.read off n = img'.read off n :=
  read_shift h

theorem read_append_iff {img : Image α} {off : Nat} {as bs : List α} {n k : Nat}
    (ha : as.length = n) (hb : bs.length = k) :
    img.read off (n + k) = some (as ++ bs) ↔
      img.read off n = some as ∧ img.read (off + n) k = some bs := by
  simp only [read_eq_some_iff, List.length_append, ha, hb, true_and]
  constructor
  · intro h
    refine ⟨fun i hi => ?_, fun i hi => ?_⟩
    · rw [h i (by omega), List.getElem?_append_left (by omega)]
    · rw [Nat.add_assoc, h (n + i) (by omega), List.getElem?_append_right (by omega)]
      congr 1
      omega
  · rintro ⟨h1, h2⟩ i hi
    by_cases hlt : i < n
    · rw [h1 i hlt, List.getElem?_append_left (by omega)]
    · have h := h2 (i - n) (by omega)
      rw [List.getElem?_append_right (by omega), ha, ← h]
      congr 1
      omega

theorem read_isSome_iff {img : Image α} {off n : Nat} :
    (img.read off n).isSome ↔ ∀ i, i < n → (img (off + i)).isSome := by
  induction n generalizing off with
  | zero => simp
  | succ n ih =>
      have hrec : (img.read off (n + 1)).isSome ↔
          (img off).isSome ∧ (img.read (off + 1) n).isSome := by
        cases h1 : img off <;> cases h2 : img.read (off + 1) n <;> simp [read, h1, h2]
      rw [hrec, ih]
      constructor
      · rintro ⟨h0, hr⟩ i hi
        cases i with
        | zero => exact h0
        | succ i =>
            have h := hr i (by omega)
            rwa [show off + 1 + i = off + (i + 1) by omega] at h
      · intro h
        refine ⟨h 0 (by omega), fun i hi => ?_⟩
        have h' := h (i + 1) (by omega)
        rwa [show off + (i + 1) = off + 1 + i by omega] at h'

theorem read_eq_none_iff {img : Image α} {off n : Nat} :
    img.read off n = none ↔ ∃ i, i < n ∧ img (off + i) = none := by
  rw [← Option.not_isSome_iff_eq_none, read_isSome_iff]
  simp

/-- Reading part of a range that reads whole. -/
theorem read_sub {img : Image α} {off n : Nat} {bs : List α} (h : img.read off n = some bs)
    {i k : Nat} (hk : i + k ≤ n) : img.read (off + i) k = some ((bs.drop i).take k) := by
  obtain ⟨hlen, hget⟩ := read_eq_some_iff.mp h
  refine read_eq_some_iff.mpr ⟨?_, fun j hj => ?_⟩
  · rw [List.length_take, List.length_drop]
    omega
  · rw [List.getElem?_take_of_lt hj, List.getElem?_drop, Nat.add_assoc, hget (i + j) (by omega)]

/-- Reading from a list stays within it and returns the slice. -/
theorem read_ofList {data : List α} {off n : Nat} (h : off + n ≤ data.length) :
    (ofList data).read off n = some ((data.drop off).take n) := by
  refine read_eq_some_iff.mpr ⟨?_, fun i hi => ?_⟩
  · rw [List.length_take, List.length_drop]
    omega
  · rw [List.getElem?_take_of_lt hi, List.getElem?_drop]
    rfl

theorem read_ofList_eq_none {data : List α} {off n : Nat} (hn : 0 < n)
    (h : data.length < off + n) : (ofList data).read off n = none := by
  refine read_eq_none_iff.mpr ⟨n - 1, by omega, ?_⟩
  exact List.getElem?_eq_none (by omega)

theorem read_ofList_eq_some {data bs : List α} {off n : Nat}
    (h : (ofList data).read off n = some bs) :
    (n = 0 ∨ off + n ≤ data.length) ∧ (data.drop off).take n = bs := by
  by_cases hn : n = 0
  · subst hn
    cases h
    exact ⟨Or.inl rfl, List.take_zero⟩
  · by_cases hle : off + n ≤ data.length
    · rw [read_ofList hle] at h
      exact ⟨Or.inr hle, Option.some.inj h⟩
    · rw [read_ofList_eq_none (by omega) (by omega)] at h
      cases h

theorem take_lt_of_read_ofList {data : List α} {off n : Nat}
    (h : (ofList data).read off n = none) : ((data.drop off).take n).length < n := by
  by_contra hge
  rw [List.length_take, List.length_drop] at hge
  by_cases hn : n = 0
  · subst hn
    cases h
  · rw [read_ofList (by omega)] at h
    cases h

/-- What is read of an image that has lost bytes was there before. -/
theorem read_of_sub {img img' : Image α} (hsub : ∀ o, img' o = img o ∨ img' o = none)
    {off n : Nat} {bs : List α} (h : img'.read off n = some bs) : img.read off n = some bs := by
  obtain ⟨hlen, hget⟩ := read_eq_some_iff.mp h
  refine read_eq_some_iff.mpr ⟨hlen, fun i hi => ?_⟩
  rcases hsub (off + i) with heq | hnone
  · rw [← heq, hget i hi]
  · rw [hget i hi, List.getElem?_eq_getElem (by omega)] at hnone
    cases hnone

/-! ## Reading up to a hole -/

/-- The values from `off` on that come before the first missing one, `n` of them at most. -/
def available (img : Image α) (off : Nat) : Nat → List α
  | 0 => []
  | n + 1 =>
      match img off with
      | none => []
      | some b => b :: available img (off + 1) n

theorem available_hole {img : Image α} {off : Nat} (h : img off = none) (n : Nat) :
    img.available off n = [] := by
  cases n with
  | zero => rfl
  | succ n => rw [available, h]

theorem available_append {img : Image α} {off k n : Nat} {bs : List α}
    (h : img.read off k = some bs) (hk : k ≤ n) :
    img.available off n = bs ++ img.available (off + k) (n - k) := by
  induction k generalizing off n bs with
  | zero =>
      cases h
      rfl
  | succ k ih =>
      obtain ⟨b, hb, h⟩ := Option.bind_eq_some_iff.mp h
      obtain ⟨cs, hcs, rfl⟩ := Option.map_eq_some_iff.mp h
      obtain ⟨n, rfl⟩ : ∃ n', n = n' + 1 := ⟨n - 1, by omega⟩
      simp only [available, hb, List.cons_append]
      rw [ih hcs (by omega), Nat.add_assoc, Nat.add_comm 1 k, Nat.add_sub_add_right]

/-- A list has no holes before its end. -/
theorem available_ofList (data : List α) (off n : Nat) :
    (ofList data).available off n = (data.drop off).take n := by
  induction n generalizing off with
  | zero => rfl
  | succ n ih =>
      rw [available, ofList]
      cases hb : data[off]? with
      | none =>
          rw [List.drop_eq_nil_of_le (List.getElem?_eq_none_iff.mp hb)]
          rfl
      | some b =>
          obtain ⟨hlt, rfl⟩ := List.getElem?_eq_some_iff.mp hb
          rw [List.drop_eq_getElem_cons hlt, List.take_succ_cons]
          exact congrArg (data[off] :: ·) (ih (off + 1))

/-- An image that lacks some of the items of a list reads like the list where it lacks
none of them. -/
theorem available_eq_ofList_iff {img : Image α} {data : List α}
    (hsub : ∀ o b, img o = some b → data[o]? = some b) (off n : Nat) :
    img.available off n = (ofList data).available off n ↔
      ∀ o, off ≤ o → o < off + n → o < data.length → (img o).isSome = true := by
  induction n generalizing off with
  | zero => exact ⟨fun _ o h1 h2 => by omega, fun _ => rfl⟩
  | succ n ih =>
      cases hb : img off with
      | none =>
          rw [available_hole hb]
          constructor
          · intro h o h1 h2 h3
            -- The list has an item here, and the image reads none.
            rw [available, ofList, List.getElem?_eq_getElem (show off < data.length by omega)] at h
            cases h
          · intro h
            have hend : data.length ≤ off := by
              by_contra hlt
              have := h off (Nat.le_refl _) (by omega) (by omega)
              rw [hb] at this
              cases this
            exact (available_hole (List.getElem?_eq_none hend) _).symm
      | some b =>
          have hd : ofList data off = some b := hsub off b hb
          simp only [available, hb, hd]
          rw [List.cons.injEq, and_iff_right rfl, ih (off + 1)]
          constructor
          · intro h o h1 h2 h3
            rcases Nat.eq_or_lt_of_le h1 with rfl | h1
            · rw [hb]
              rfl
            · exact h o h1 (by omega) h3
          · exact fun h o h1 h2 h3 => h o (by omega) (by omega) h3

end Image
end Lib
end WalDb
