import Multicore.Base.Run

/-!
# Locks, and refinement

What a section that a lock guards relies on: a thread takes steps in `lock` until it holds the lock, the
next step it takes there gives the lock back, and no two threads ever hold it.

A run of one system refines another if each of its steps can be answered: by a step of the other system,
or by none, so that the states stay related and an observer sees the same events.
-/

namespace Multicore

structure Lock (n : ℕ) where
  State : Type
  initial : State
  /-- The next step of a thread inside `lock` or `unlock`; there is none while the thread is kept
  waiting. -/
  advance : State → Fin n → Option State
  holds : State → Fin n → Bool
  not_holds_initial : ∀ i, holds initial i = false
  exclusive : ∀ trace s i j, Run (fun s i s' => advance s i = some s') initial trace s →
    holds s i = true → holds s j = true → i = j
  others : ∀ s i s' j, advance s i = some s' → j ≠ i → holds s' j = holds s j
  release : ∀ s i s', advance s i = some s' → holds s i = true → holds s' i = false

variable {σ ε τ δ ω : Type*}

/-- A relation under which every step of a run can be answered by a step of another system, or by none,
leads along a run of that system. What is seen of the two runs is the same. -/
theorem Run.refine {step : σ → ε → σ → Prop} {start s : σ} {trace : List ε}
    (hrun : Run step start trace s) (step' : τ → δ → τ → Prop) (R : σ → τ → Prop)
    (seen : ε → Option ω) (seen' : δ → Option ω) {start' : τ} (hstart : R start start')
    (hsim : ∀ s e s' trace' t, Run step' start' trace' t → R s t → step s e s' →
      seen e = none ∧ R s' t ∨ ∃ d t', step' t d t' ∧ seen' d = seen e ∧ R s' t') :
    ∃ trace' t, Run step' start' trace' t ∧ trace'.filterMap seen' = trace.filterMap seen ∧ R s t := by
  induction hrun with
  | nil => exact ⟨[], start', .nil, rfl, hstart⟩
  | cons hrun hstep ih =>
    obtain ⟨trace', t, hrun', hseen, hR⟩ := ih
    rcases hsim _ _ _ _ _ hrun' hR hstep with ⟨hnone, hR'⟩ | ⟨d, t', hstep', hsame, hR'⟩
    · exact ⟨trace', t, hrun', by rw [hseen, List.filterMap_cons_none hnone], hR'⟩
    · refine ⟨d :: trace', t', .cons hrun' hstep', ?_, hR'⟩
      rw [List.filterMap_cons, List.filterMap_cons, hsame, hseen]

end Multicore
