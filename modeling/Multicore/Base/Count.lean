import Mathlib.Algebra.Order.BigOperators.Group.Finset
import Mathlib.Algebra.BigOperators.Fin
import Mathlib.Data.Fintype.BigOperators

/-!
# Counting threads

How many members of a finite family have a property, and what changing one member does to the number.
-/

namespace Multicore

variable {ι α : Type*} [Fintype ι]

/-- Changing one member changes a sum by that member. -/
theorem sum_update_add {M : Type*} [AddCommMonoid M] [DecidableEq ι] (g : α → M) {f : ι → α} (i : ι)
    (a : α) : ∑ j, g (Function.update f i a j) + g (f i) = ∑ j, g (f j) + g a := by
  rw [← Finset.add_sum_erase _ _ (Finset.mem_univ i), ← Finset.add_sum_erase _ _ (Finset.mem_univ i)]
  have hrest : ∑ j ∈ Finset.univ.erase i, g (Function.update f i a j) =
      ∑ j ∈ Finset.univ.erase i, g (f j) :=
    Finset.sum_congr rfl fun j hj => by rw [Function.update_of_ne (Finset.ne_of_mem_erase hj)]
  rw [hrest, Function.update_self]
  ac_rfl

/-- The number of members of `f` with the property `p`. -/
def count (p : α → Bool) (f : ι → α) : ℕ := ∑ i, (p (f i)).toNat

section

variable {p : α → Bool} {f : ι → α}

theorem count_pos_iff : 0 < count p f ↔ ∃ i, p (f i) = true := by
  simp only [count, Finset.sum_pos_iff, Finset.mem_univ, true_and]
  exact exists_congr fun i => by cases p (f i) <;> simp

theorem count_eq_zero_iff : count p f = 0 ↔ ∀ i, p (f i) = false := by
  simp [count]

theorem count_le_card : count p f ≤ Fintype.card ι := by
  refine (Finset.sum_le_card_nsmul _ _ 1 fun i _ => ?_).trans (by simp)
  exact Bool.toNat_le _

theorem count_congr {g : ι → α} (h : ∀ i, p (f i) = p (g i)) : count p f = count p g := by
  simp only [count, h]

/-- Changing one member changes the number by that member. -/
theorem count_update [DecidableEq ι] (i : ι) (a : α) :
    count p (Function.update f i a) + (p (f i)).toNat = count p f + (p a).toNat :=
  sum_update_add (fun a => (p a).toNat) i a

end

/-- A witness other than the changed member remains one; the changed member has to be looked at. -/
theorem exists_update {ι : Type*} [DecidableEq ι] (P : α → Prop) {f : ι → α} {i : ι} {a : α}
    (hold : ∃ j, P (f j)) (hself : P (f i) → P a) : ∃ j, P (Function.update f i a j) := by
  obtain ⟨j, hj⟩ := hold
  by_cases heq : j = i
  · subst heq
    exact ⟨j, by simpa using hself hj⟩
  · exact ⟨j, by simpa [heq] using hj⟩

end Multicore
