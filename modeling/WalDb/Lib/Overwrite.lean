/-
Writing bytes into a list at an offset.

`overwrite` puts `bytes` at `offset`, keeping what lies around it and zero-filling
any gap before it, as a write into a sparse file does.  The lemmas say what each
offset holds afterwards.
-/
import Mathlib.Data.List.Basic

namespace WalDb
namespace Lib

/-- `data` with `bytes` written at `offset`. -/
def overwrite (data : List UInt8) (offset : Nat) (bytes : List UInt8) : List UInt8 :=
  data.take offset ++ List.replicate (offset - data.length) 0 ++ bytes ++
    data.drop (offset + bytes.length)

variable {data bytes : List UInt8} {offset o : Nat}

theorem length_overwrite :
    (overwrite data offset bytes).length = max data.length (offset + bytes.length) := by
  simp only [overwrite, List.length_append, List.length_take, List.length_replicate,
    List.length_drop]
  omega

theorem length_padded :
    (data.take offset ++ List.replicate (offset - data.length) 0).length = offset := by
  simp only [List.length_append, List.length_take, List.length_replicate]
  omega

/-- A write at the end is an append. -/
theorem overwrite_end : overwrite data data.length bytes = data ++ bytes := by
  simp [overwrite]

/-- The written range holds the bytes. -/
theorem getElem?_overwrite_in (h1 : offset ≤ o) (h2 : o < offset + bytes.length) :
    (overwrite data offset bytes)[o]? = bytes[o - offset]? := by
  rw [overwrite, List.getElem?_append_left (by rw [List.length_append, length_padded]; exact h2),
    List.getElem?_append_right (by rw [length_padded]; exact h1), length_padded]

/-- A byte that was there and is not written over is still there. -/
theorem getElem?_overwrite_out (h : o < offset ∨ offset + bytes.length ≤ o)
    (hlt : o < data.length) : (overwrite data offset bytes)[o]? = data[o]? := by
  rcases h with h | h
  · rw [overwrite, List.append_assoc, List.append_assoc, List.getElem?_append_left
      (by rw [List.length_take]; omega), List.getElem?_take_of_lt h]
  · rw [overwrite, List.getElem?_append_right (by rw [List.length_append, length_padded]; exact h),
      List.length_append, length_padded, List.getElem?_drop]
    congr 1
    omega

/-- The gap before a write past the end holds zeros. -/
theorem getElem?_overwrite_gap (h1 : data.length ≤ o) (h2 : o < offset) :
    (overwrite data offset bytes)[o]? = some 0 := by
  rw [overwrite, List.append_assoc, List.append_assoc, List.getElem?_append_right
    (by rw [List.length_take]; omega), List.length_take, List.getElem?_append_left
    (by rw [List.length_replicate]; omega), List.getElem?_replicate]
  simp only [ite_eq_left_iff, reduceCtorEq]
  omega

/-- A write past the end leaves a gap of zeros and adds its bytes. -/
theorem overwrite_past (h : data.length ≤ offset) :
    overwrite data offset bytes = data ++ List.replicate (offset - data.length) 0 ++ bytes := by
  simp [overwrite, List.take_of_length_le h,
    List.drop_eq_nil_of_le (show data.length ≤ offset + bytes.length by omega)]

/-- What each offset holds after a write. -/
theorem getElem?_overwrite : (overwrite data offset bytes)[o]? =
    if offset ≤ o ∧ o < offset + bytes.length then bytes[o - offset]?
    else if o < data.length then data[o]? else if o < offset then some 0 else none := by
  split
  · rename_i hin
    exact getElem?_overwrite_in hin.1 hin.2
  · rename_i hout
    split
    · rename_i hlt
      exact getElem?_overwrite_out (by omega) hlt
    · rename_i hge
      split
      · rename_i hgap
        exact getElem?_overwrite_gap (by omega) hgap
      · apply List.getElem?_eq_none
        rw [length_overwrite]
        omega

theorem overwrite_nil (h : offset ≤ data.length) :
    overwrite data offset [] = data := by
  have : offset - data.length = 0 := by omega
  simp [overwrite, this]

/-- Bytes written in two steps, the second where the first ends. -/
theorem overwrite_append (data : List UInt8) (offset : Nat) (a b : List UInt8) :
    overwrite (overwrite data offset a) (offset + a.length) b = overwrite data offset (a ++ b) := by
  apply List.ext_getElem?
  intro o
  simp only [getElem?_overwrite, length_overwrite, List.length_append, List.getElem?_append]
  split_ifs <;> first | rfl | omega | (congr 1; omega)

/-- Writes to ranges that do not meet commute. -/
theorem overwrite_comm {offset' : Nat} {bytes' : List UInt8} (hne : bytes ≠ []) (hne' : bytes' ≠ [])
    (h : offset + bytes.length ≤ offset' ∨ offset' + bytes'.length ≤ offset) :
    overwrite (overwrite data offset bytes) offset' bytes' =
      overwrite (overwrite data offset' bytes') offset bytes := by
  have hpos := List.length_pos_of_ne_nil hne
  have hpos' := List.length_pos_of_ne_nil hne'
  apply List.ext_getElem?
  intro o
  simp only [getElem?_overwrite, length_overwrite]
  split_ifs <;> first | rfl | omega

/-- Write one range after the other. -/
def overwriteAll (data : List UInt8) (writes : List (Nat × List UInt8)) : List UInt8 :=
  writes.foldl (fun data w => overwrite data w.1 w.2) data

/-- Writes to ranges that lie one after the other give the same in any order. -/
theorem overwriteAll_perm {ws ws' : List (Nat × List UInt8)} (hperm : ws.Perm ws')
    (hne : ∀ w ∈ ws, w.2 ≠ []) (h : ws.Pairwise fun v w => v.1 + v.2.length ≤ w.1) :
    overwriteAll data ws = overwriteAll data ws' := by
  have hapart : ∀ v ∈ ws, ∀ w ∈ ws,
      v = w ∨ v.1 + v.2.length ≤ w.1 ∨ w.1 + w.2.length ≤ v.1 := by
    clear hperm hne
    induction ws with
    | nil =>
        intro v hv
        cases hv
    | cons u ws ih =>
        obtain ⟨hu, hrest⟩ := List.pairwise_cons.mp h
        intro v hv w hw
        rcases List.mem_cons.mp hv with rfl | hv1 <;> rcases List.mem_cons.mp hw with rfl | hw1
        · exact Or.inl rfl
        · exact Or.inr (Or.inl (hu w hw1))
        · exact Or.inr (Or.inr (hu v hv1))
        · exact ih hrest v hv1 w hw1
  refine hperm.foldl_eq' (fun v hv w hw data => ?_) data
  rcases hapart v hv w hw with rfl | hapart
  · rfl
  · exact overwrite_comm (hne v hv) (hne w hw) hapart

end Lib
end WalDb
