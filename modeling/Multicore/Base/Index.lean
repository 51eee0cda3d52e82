import Mathlib.Data.List.Basic

/-!
# Indices into a list that grows at its end

A search array or a queue that is only appended to: what an index finds stays there.
-/

namespace Multicore

variable {α : Type*} {l l' : List α} {a b : α} {k : ℕ}

theorem lt_length_of_getElem? (h : l[k]? = some a) : k < l.length :=
  (List.getElem?_eq_some_iff.1 h).1

/-- An index into the longer list finds an old element, or it is the last one. -/
theorem getElem?_append_singleton (h : (l ++ [b])[k]? = some a) :
    l[k]? = some a ∨ (k = l.length ∧ a = b) := by
  by_cases hlt : k < l.length
  · rw [List.getElem?_append_left hlt] at h
    exact .inl h
  · rw [List.getElem?_append_right (Nat.not_lt.1 hlt), List.getElem?_singleton] at h
    split at h
    · cases h
      exact .inr ⟨by omega, rfl⟩
    · cases h

theorem getElem?_of_extended (hext : l <+: l') (h : l[k]? = some a) : l'[k]? = some a := by
  obtain ⟨rest, rfl⟩ := hext
  rwa [List.getElem?_append_left (lt_length_of_getElem? h)]

theorem getElem?_eq_of_extended (hext : l <+: l') (hk : k < l.length) : l'[k]? = l[k]? := by
  obtain ⟨rest, rfl⟩ := hext
  rw [List.getElem?_append_left hk]

theorem getElem?_append_of_some (h : l[k]? = some a) : (l ++ l')[k]? = some a :=
  getElem?_of_extended (List.prefix_append l l') h

/-- The elements between two indices. -/
theorem mem_drop_take_iff {first last : ℕ} :
    a ∈ (l.take last).drop first ↔ ∃ j, first ≤ j ∧ j < last ∧ l[j]? = some a := by
  rw [List.mem_iff_getElem?]
  constructor
  · rintro ⟨i, hi⟩
    rw [List.getElem?_drop, List.getElem?_take] at hi
    split at hi
    · exact ⟨first + i, Nat.le_add_right _ _, ‹_›, hi⟩
    · cases hi
  · rintro ⟨j, hfirst, hlast, hj⟩
    refine ⟨j - first, ?_⟩
    rw [List.getElem?_drop, Nat.add_sub_cancel' hfirst, List.getElem?_take, if_pos hlast, hj]

end Multicore
