/-
Codes whose words can be told apart as they are read.

`decode` reads one word off the front of a text and returns what it stands for and the
rest.  `Exact` says that it finds a word exactly where there is one.  A code with such a
decoder is prefix-free, and a text of several words is read back in one way only.
-/
import Mathlib.Data.List.Basic

namespace WalDb
namespace Lib

variable {α β : Type}

/-- Read words until none is found: what they stand for, and what is left. -/
def decodeAll (decode : List β → Option (α × List β)) (text : List β) : List α × List β :=
  match decode text with
  | none => ([], text)
  | some (a, rest) =>
      if rest.length < text.length then
        let found := decodeAll decode rest
        (a :: found.1, found.2)
      else ([], text)
termination_by text.length

/-- `decode` finds the word of `a` at the front of a text exactly where it stands there. -/
structure Exact (valid : α → Prop) (encode : α → List β)
    (decode : List β → Option (α × List β)) : Prop where
  decode_iff : ∀ text a rest, decode text = some (a, rest) ↔ valid a ∧ text = encode a ++ rest
  encode_ne_nil : ∀ a, encode a ≠ []

namespace Exact

variable {valid : α → Prop} {encode : α → List β} {decode : List β → Option (α × List β)}

theorem decode_append (h : Exact valid encode decode) {a : α} (ha : valid a) (rest : List β) :
    decode (encode a ++ rest) = some (a, rest) := (h.decode_iff _ _ _).mpr ⟨ha, rfl⟩

/-- Two words at the front of one text are the same word. -/
theorem append_inj (h : Exact valid encode decode) {a b : α} (ha : valid a) (hb : valid b)
    {rest rest' : List β} (heq : encode a ++ rest = encode b ++ rest') :
    a = b ∧ rest = rest' := by
  have hread := h.decode_append ha rest
  rw [heq, h.decode_append hb rest'] at hread
  simp only [Option.some.injEq, Prod.mk.injEq] at hread
  exact ⟨hread.1.symm, hread.2.symm⟩

theorem eq_of_isPrefix (h : Exact valid encode decode) {a b : α} (ha : valid a) (hb : valid b)
    (hpre : encode a <+: encode b) : a = b := by
  obtain ⟨rest, hrest⟩ := hpre
  rw [← List.append_nil (encode b)] at hrest
  exact (h.append_inj ha hb hrest).1

theorem encode_inj (h : Exact valid encode decode) {a b : α} (ha : valid a) (hb : valid b)
    (heq : encode a = encode b) : a = b :=
  h.eq_of_isPrefix ha hb (heq ▸ List.prefix_rfl)

theorem decode_nil (h : Exact valid encode decode) : decode [] = none := by
  cases hd : decode [] with
  | none => rfl
  | some r =>
      obtain ⟨-, heq⟩ := (h.decode_iff _ _ _).mp hd
      exact absurd (List.append_eq_nil_iff.mp heq.symm).1 (h.encode_ne_nil _)

/-- A text of words is read back. -/
theorem decodeAll_flatMap (h : Exact valid encode decode) {as : List α} (has : ∀ a ∈ as, valid a) :
    decodeAll decode (as.flatMap encode) = (as, []) := by
  induction as with
  | nil => rw [decodeAll, List.flatMap_nil, h.decode_nil]
  | cons a as ih =>
      have hlt : (as.flatMap encode).length < (encode a ++ as.flatMap encode).length := by
        have hpos := List.length_pos_of_ne_nil (h.encode_ne_nil a)
        rw [List.length_append]
        omega
      rw [List.flatMap_cons, decodeAll, h.decode_append (has a List.mem_cons_self)]
      simp only [if_pos hlt]
      rw [ih fun b hb => has b (List.mem_cons_of_mem a hb)]

/-- One text is not the words of two lists. -/
theorem flatMap_inj (h : Exact valid encode decode) {as bs : List α} (has : ∀ a ∈ as, valid a)
    (hbs : ∀ b ∈ bs, valid b) (heq : as.flatMap encode = bs.flatMap encode) : as = bs := by
  have hread := h.decodeAll_flatMap has
  rw [heq, h.decodeAll_flatMap hbs] at hread
  exact (congrArg Prod.fst hread).symm

end Exact

end Lib
end WalDb
