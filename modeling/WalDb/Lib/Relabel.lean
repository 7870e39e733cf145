/-
A finite map seen through a naming of its keys.

Some of the keys of a map are names of labels, and `parse` tells which and of what.
When a label has one name and `parse` accepts no other, the part of the map under
such names is a map from labels, in the same order, and looking up, inserting and
erasing a label there is the same as doing so with its name.
-/
import Mathlib.Data.List.AList

namespace WalDb
namespace Lib
namespace Relabel

/-- `parse` accepts the names of valid labels, and nothing else. -/
structure Exact {α β : Type} (valid : β → Prop) (name : β → α) (parse : α → Option β) : Prop where
  parse_iff : ∀ a b, parse a = some b ↔ valid b ∧ a = name b

section

variable {α β γ : Type} {valid : β → Prop} {name : β → α} {parse : α → Option β}

/-- The entries under names, by label. -/
def entries (parse : α → Option β) (l : List (Sigma fun _ : α => γ)) :
    List (Sigma fun _ : β => γ) :=
  l.filterMap fun e => (parse e.1).map fun b => ⟨b, e.2⟩

theorem entries_cons_of_none {a : α} (h : parse a = none) (c : γ)
    (l : List (Sigma fun _ : α => γ)) : entries parse (⟨a, c⟩ :: l) = entries parse l := by
  simp [entries, h]

theorem entries_cons_of_some {a : α} {b : β} (h : parse a = some b) (c : γ)
    (l : List (Sigma fun _ : α => γ)) :
    entries parse (⟨a, c⟩ :: l) = ⟨b, c⟩ :: entries parse l := by
  simp [entries, h]

theorem Exact.label_ne (hx : Exact valid name parse) {a : α} {b b' : β} (h : parse a = some b')
    (ha : name b ≠ a) : b ≠ b' := by
  rintro rfl
  exact ha ((hx.parse_iff a b).mp h).2.symm

theorem Exact.mem_keys (hx : Exact valid name parse) {b : β} {l : List (Sigma fun _ : α => γ)}
    (h : b ∈ (entries parse l).keys) : name b ∈ l.keys := by
  simp only [List.keys, entries, List.mem_map, List.mem_filterMap, Option.map_eq_some_iff] at h
  obtain ⟨_, ⟨e, he, b', hb', rfl⟩, rfl⟩ := h
  rw [← ((hx.parse_iff e.1 b').mp hb').2]
  exact List.mem_keys_of_mem he

theorem Exact.nodupKeys (hx : Exact valid name parse) {l : List (Sigma fun _ : α => γ)}
    (h : l.NodupKeys) : (entries parse l).NodupKeys := by
  induction l with
  | nil => exact List.nodupKeys_nil
  | cons e l ih =>
      obtain ⟨a, c⟩ := e
      rw [List.nodupKeys_cons] at h
      cases hp : parse a with
      | none =>
          rw [entries_cons_of_none hp]
          exact ih h.2
      | some b =>
          rw [entries_cons_of_some hp, List.nodupKeys_cons]
          refine ⟨fun hb => h.1 ?_, ih h.2⟩
          rw [((hx.parse_iff a b).mp hp).2]
          exact hx.mem_keys hb

variable [DecidableEq α]

theorem kerase_head {δ : Type} [DecidableEq δ] (d : δ) (c : γ)
    (l : List (Sigma fun _ : δ => γ)) : List.kerase d (⟨d, c⟩ :: l) = l :=
  List.kerase_cons_eq rfl

/-- Entries under other keys do not show. -/
theorem kerase_of_none {a : α} (h : parse a = none) (l : List (Sigma fun _ : α => γ)) :
    entries parse (l.kerase a) = entries parse l := by
  induction l with
  | nil => rfl
  | cons e l ih =>
      obtain ⟨a', c⟩ := e
      by_cases ha : a = a'
      · subst ha
        rw [kerase_head, entries_cons_of_none h]
      · rw [List.kerase_cons_ne ha]
        cases hp : parse a' with
        | none => rw [entries_cons_of_none hp, entries_cons_of_none hp, ih]
        | some b => rw [entries_cons_of_some hp, entries_cons_of_some hp, ih]

/-- The part of a map under names, by label. -/
def view (hx : Exact valid name parse) (m : AList fun _ : α => γ) : AList fun _ : β => γ :=
  ⟨entries parse m.entries, hx.nodupKeys m.nodupKeys⟩

theorem view_insert_of_none (hx : Exact valid name parse) (m : AList fun _ : α => γ) {a : α}
    (h : parse a = none) (c : γ) :
    view hx (m.insert a c) = view hx m := by
  apply AList.ext
  show entries parse (m.insert a c).entries = entries parse m.entries
  rw [AList.entries_insert, entries_cons_of_none h, kerase_of_none h]

theorem view_erase_of_none (hx : Exact valid name parse) (m : AList fun _ : α => γ) {a : α}
    (h : parse a = none) :
    view hx (m.erase a) = view hx m :=
  AList.ext (kerase_of_none h m.entries)

variable [DecidableEq β]

theorem Exact.dlookup (hx : Exact valid name parse) {b : β} (hb : valid b)
    (l : List (Sigma fun _ : α => γ)) :
    (entries parse l).dlookup b = l.dlookup (name b) := by
  induction l with
  | nil => rfl
  | cons e l ih =>
      obtain ⟨a, c⟩ := e
      by_cases ha : name b = a
      · subst ha
        rw [entries_cons_of_some ((hx.parse_iff _ b).mpr ⟨hb, rfl⟩), List.dlookup_cons_eq,
          List.dlookup_cons_eq]
      · rw [List.dlookup_cons_ne _ _ ha, ← ih]
        cases hp : parse a with
        | none => rw [entries_cons_of_none hp]
        | some b' =>
            rw [entries_cons_of_some hp, List.dlookup_cons_ne _ _ (hx.label_ne hp ha)]

theorem Exact.kerase (hx : Exact valid name parse) {b : β} (hb : valid b)
    (l : List (Sigma fun _ : α => γ)) :
    entries parse (l.kerase (name b)) = (entries parse l).kerase b := by
  induction l with
  | nil => rfl
  | cons e l ih =>
      obtain ⟨a, c⟩ := e
      by_cases ha : name b = a
      · subst ha
        rw [entries_cons_of_some ((hx.parse_iff _ b).mpr ⟨hb, rfl⟩), kerase_head,
          kerase_head]
      · rw [List.kerase_cons_ne ha]
        cases hp : parse a with
        | none => rw [entries_cons_of_none hp, entries_cons_of_none hp, ih]
        | some b' =>
            rw [entries_cons_of_some hp, entries_cons_of_some hp,
              List.kerase_cons_ne (hx.label_ne hp ha), ih]

variable (hx : Exact valid name parse) (m : AList fun _ : α => γ)

theorem lookup_view {b : β} (hb : valid b) : (view hx m).lookup b = m.lookup (name b) :=
  hx.dlookup hb m.entries

theorem view_insert {b : β} (hb : valid b) (c : γ) :
    view hx (m.insert (name b) c) = (view hx m).insert b c := by
  apply AList.ext
  rw [AList.entries_insert]
  show entries parse (m.insert (name b) c).entries = _
  rw [AList.entries_insert, entries_cons_of_some ((hx.parse_iff _ b).mpr ⟨hb, rfl⟩),
    hx.kerase hb]
  rfl

theorem view_erase {b : β} (hb : valid b) :
    view hx (m.erase (name b)) = (view hx m).erase b :=
  AList.ext (hx.kerase hb m.entries)

end

end Relabel
end Lib
end WalDb
