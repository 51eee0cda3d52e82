import Mathlib.Order.Bounds.Basic
import Mathlib.Order.MinMax

/-!
# The least and the greatest value of a loop

A loop that keeps the smaller of the value so far and the next one ends with the least of them all,
the initial value included. Where a loop works on estimates, each of them right or one too large, the
candidates that attain the extreme estimate decide between the two values that are left.
-/

namespace Multicore

variable {α β : Type*} [LinearOrder β]

theorem isLeast_foldl_min (f : α → β) (l : List α) (first : β) :
    IsLeast (insert first (f '' {x | x ∈ l})) (l.foldl (fun least x => min least (f x)) first) := by
  induction l generalizing first with
  | nil => simp
  | cons x l ih =>
    obtain ⟨hmem, hle⟩ := ih (min first (f x))
    have hfirst := hle (Set.mem_insert _ _)
    constructor
    · obtain heq | ⟨y, hy, heq⟩ := hmem
      · obtain hmin | hmin := min_choice first (f x)
        · exact .inl (heq.trans hmin)
        · exact .inr ⟨x, List.mem_cons_self, (heq.trans hmin).symm⟩
      · exact .inr ⟨y, List.mem_cons_of_mem x hy, heq⟩
    · rintro b (rfl | ⟨y, hy, rfl⟩)
      · exact hfirst.trans (min_le_left _ _)
      · obtain rfl | hy := List.mem_cons.1 hy
        · exact hfirst.trans (min_le_right _ _)
        · exact hle (.inr ⟨y, hy, rfl⟩)

theorem isGreatest_foldl_max (f : α → β) (l : List α) (first : β) :
    IsGreatest (insert first (f '' {x | x ∈ l})) (l.foldl (fun most x => max most (f x)) first) :=
  isLeast_foldl_min (β := βᵒᵈ) f l first

/-! ### Estimates that may be one too large -/

section Estimate

variable {S : Set α} {estimate value : α → ℕ} {m : ℕ} {c : Prop} [Decidable c]

theorem isLeast_of_estimate (hleast : IsLeast (estimate '' S) m)
    (hvalue : ∀ x ∈ S, value x = estimate x ∨ value x = estimate x - 1)
    (hc : c ↔ ∃ x ∈ S, estimate x = m ∧ value x = estimate x - 1) :
    IsLeast (value '' S) (if c then m - 1 else m) := by
  have hbelow : ∀ x ∈ S, m ≤ estimate x := fun x hx => hleast.2 ⟨x, hx, rfl⟩
  split
  · obtain ⟨x, hx, heq, hlow⟩ := hc.1 ‹_›
    refine ⟨⟨x, hx, by omega⟩, ?_⟩
    rintro _ ⟨y, hy, rfl⟩
    have hle := hbelow y hy
    have hor := hvalue y hy
    omega
  · rename_i hnot
    have hsame : ∀ x ∈ S, estimate x = m → value x = m := fun x hx heq =>
      ((hvalue x hx).resolve_right fun hlow => hnot (hc.2 ⟨x, hx, heq, hlow⟩)).trans heq
    obtain ⟨x, hx, heq⟩ := hleast.1
    refine ⟨⟨x, hx, hsame x hx heq⟩, ?_⟩
    rintro _ ⟨y, hy, rfl⟩
    have hle := hbelow y hy
    have hor := hvalue y hy
    have hcandidate := hsame y hy
    omega

theorem isGreatest_of_estimate (hgreatest : IsGreatest (estimate '' S) m)
    (hvalue : ∀ x ∈ S, value x = estimate x ∨ value x = estimate x - 1)
    (hc : c ↔ ∃ x ∈ S, estimate x = m ∧ value x = estimate x) :
    IsGreatest (value '' S) (if c then m else m - 1) := by
  have habove : ∀ x ∈ S, estimate x ≤ m := fun x hx => hgreatest.2 ⟨x, hx, rfl⟩
  split
  · obtain ⟨x, hx, heq, hhigh⟩ := hc.1 ‹_›
    refine ⟨⟨x, hx, hhigh.trans heq⟩, ?_⟩
    rintro _ ⟨y, hy, rfl⟩
    have hle := habove y hy
    have hor := hvalue y hy
    omega
  · rename_i hnot
    have hlower : ∀ x ∈ S, estimate x = m → value x = m - 1 := by
      intro x hx heq
      rw [← heq]
      exact (hvalue x hx).resolve_left fun hhigh => hnot (hc.2 ⟨x, hx, heq, hhigh⟩)
    obtain ⟨x, hx, heq⟩ := hgreatest.1
    refine ⟨⟨x, hx, hlower x hx heq⟩, ?_⟩
    rintro _ ⟨y, hy, rfl⟩
    have hle := habove y hy
    have hor := hvalue y hy
    have hcandidate := hlower y hy
    omega

end Estimate

end Multicore
