import Multicore.Reference.Capacity
import Multicore.Reference.Fences

/-!
# Depths in 16 bits

`FindMinMaxPath` counts the depth in an `int` and keeps the depth of a first meeting in a `uint16_t`.
A thread can run ahead of another until it meets it at its house, so a depth that does not fit is kept
in some interleaving as soon as two houses are far enough apart, and in none otherwise.
-/

namespace Multicore.Reference

variable {input : Input} {a b x : Fin input.numHouse}
  {s s' : State input.numHouse (Fin input.numVertices)} {trace : List (Fin input.numHouse)}

/-- A step leaves a record as it is, or writes it once, with the depth the thread is completing. -/
theorem info_step (h : Inv input s) (hstep : Step input s x s') :
    info s' a b = info s a b ∨
      x = a ∧ a ≠ b ∧ (info s a b).vid = none ∧
        ∃ w, info s' a b = ⟨some w, (s.thread a).currDepth + 1⟩ := by
  obtain ⟨hen, rfl⟩ := hstep
  by_cases hx : a = x
  · subst hx
    obtain ⟨m, -, hsearch⟩ := (h.threads a).searching
    -- Only the step that sets a mark writes records.
    have hquiet : ∀ t : Thread (Fin input.numVertices), t.visitInfo = (s.thread a).visitInfo →
        info (s.setThread a t) a b = info s a b := fun t hinfo => info_setThread hinfo a b
    rw [effect]
    cases hpc : (s.thread a).pc <;> dsimp only
    case dequeue =>
      left
      split
      · exact hquiet _ rfl
      · exact hquiet _ rfl
      · exact hquiet _ rfl
    case test rest =>
      left
      cases rest with
      | nil => exact hquiet _ rfl
      | cons w rest =>
        dsimp only
        split
        · exact hquiet _ rfl
        · exact hquiet _ rfl
    case mark w rest =>
      obtain ⟨hne, hnone, -, hnew⟩ | ⟨-, hsame⟩ := info_markStep_self hsearch w rest b
      · exact .inr ⟨rfl, hne.symm, hnone, w, hnew⟩
      · exact .inl hsame
    case stopped => exact absurd hpc hen
  · left
    rw [info, thread_effect_of_ne hx, info]

/-- What has been recorded stays. -/
theorem info_of_met {later : List (Fin input.numHouse)}
    {s'' : State input.numHouse (Fin input.numVertices)} (h : Inv input s')
    (hmet : (info s' a b).vid ≠ none) (hrun : Run (Step input) s' later s'') :
    info s'' a b = info s' a b := by
  have hkept : Inv input s'' ∧ info s'' a b = info s' a b := by
    apply hrun.invariant (P := fun _ s => Inv input s ∧ info s a b = info s' a b)
    · exact ⟨h, rfl⟩
    · rintro trace s x t - ⟨hinv, hsame⟩ hstep
      refine ⟨inv_step hinv hstep, ?_⟩
      obtain heq | ⟨-, -, hnone, -⟩ := info_step (a := a) (b := b) hinv hstep
      · rw [heq, hsame]
      · rw [hsame] at hnone
        exact absurd hnone hmet
  exact hkept.2

/-- No thread meets another deeper than at the other's house. -/
theorem depth_le_houseDist (hrun : Run (Step input) (initial input) trace s)
    (a b : Fin input.numHouse) : (info s a b).depth ≤ input.houseDist a b := by
  apply hrun.invariant (P := fun _ s => (info s a b).depth ≤ input.houseDist a b)
  · exact Nat.zero_le _
  · intro trace s x s' hrun hold hstep
    have hinv := inv_of_run hrun
    obtain heq | ⟨-, hne, hnone, w, heq⟩ := info_step (a := a) (b := b) hinv hstep
    · rw [heq]
      exact hold
    · rw [heq]
      exact currDepth_lt_of_not_met hinv hne hnone

/-- The thread that runs alone meets every other one at the other's house. -/
theorem depth_of_alone (hrun : Run (StepAlone input a) (initial input) trace s)
    (hstop : (s.thread a).pc = .stopped) (hne : a ≠ b) :
    (info s a b).depth = input.houseDist a b ∧ (info s a b).vid = some (input.house b) := by
  have hinv := inv_of_run hrun.of_restrict
  obtain ⟨w, hw⟩ := Option.ne_none_iff_exists'.1 (met_of_stopped hinv hstop hne).1
  obtain ⟨-, hmem, hdepth, -⟩ := hinv.record a b w hw
  rw [marks_of_alone hrun hne.symm] at hmem
  have hhouse : w = input.house b := hmem
  rw [hhouse] at hw hdepth
  exact ⟨hdepth, hw⟩

/-- In every interleaving the depths of 16 bits are the depths at which the threads met. -/
structure DepthsExact (input : Input) : Prop where
  /-- The depth kept for a meeting is `curr_depth + 1` of the step that found the mark. -/
  kept : ∀ trace s a s' later s'' b, Run (Step input) (initial input) trace s → Step input s a s' →
    (info s a b).vid = none → (info s' a b).vid ≠ none → Run (Step input) s' later s'' →
    (info (stored s'') a b).depth = (s.thread a).currDepth + 1
  /-- It is the distance from the thread's house to the vertex of the meeting. -/
  breadthFirst : ∀ trace s a b w, Run (Step input) (initial input) trace s →
    (info s a b).vid = some w → (info (stored s) a b).depth = input.roads.dist (input.house a) w
  /-- The sums `MakeResult` compares are those of the depths the threads counted. -/
  sums : ∀ trace s p, Run (Step input) (initial input) trace s → dist (stored s) p = dist s p

/-- The depths are kept exactly if and only if no two houses are `2 ^ 16` or more apart. -/
theorem depthsExact_iff (input : Input) :
    DepthsExact input ↔ ∀ a b, input.houseDist a b < 65536 := by
  constructor
  · intro hexact a b
    by_cases hne : a = b
    · rw [← hne, Input.houseDist, SimpleGraph.dist_self]
      exact Nat.zero_lt_succ _
    · obtain ⟨trace, s, hrun, hstop⟩ := exists_stopped_alone a
      obtain ⟨-, hvid⟩ := depth_of_alone hrun hstop hne
      have hdepth := hexact.breadthFirst trace s a b _ hrun.of_restrict hvid
      rw [stored_depth] at hdepth
      exact hdepth.symm.trans_lt (Nat.mod_lt _ (Nat.zero_lt_succ _))
  · intro hnear
    have hstored : ∀ trace s a b, Run (Step input) (initial input) trace s →
        (info (stored s) a b).depth = (info s a b).depth := by
      intro trace s a b hrun
      rw [stored_depth]
      exact Nat.mod_eq_of_lt ((depth_le_houseDist hrun a b).trans_lt (hnear a b))
    refine ⟨?_, ?_, ?_⟩
    · intro trace s a s' later s'' b hrun hstep hnone hmet hlater
      have hinv := inv_of_run hrun
      rw [hstored _ _ a b ((hrun.cons hstep).append hlater),
        info_of_met (inv_step hinv hstep) hmet hlater]
      obtain heq | ⟨-, -, -, w, heq⟩ := info_step (a := a) (b := b) hinv hstep
      · rw [heq] at hmet
        exact absurd hnone hmet
      · rw [heq]
    · intro trace s a b w hrun hw
      rw [hstored _ _ a b hrun]
      exact ((inv_of_run hrun).record a b w hw).2.2.1
    · intro trace s p hrun
      rw [dist, dist, hstored _ _ _ _ hrun, hstored _ _ _ _ hrun]

/-- The first thread of a row, run alone, meets the second at the far end. -/
theorem row_depth (n : ℕ) :
    ∃ trace s, Run (Step (row n)) (initial (row n)) trace s ∧
      (info s (0 : Fin 2) (1 : Fin 2)).depth = n + 1 := by
  obtain ⟨trace, s, hrun, hstop⟩ := @exists_stopped_alone (row n) (0 : Fin 2)
  refine ⟨trace, s, hrun.of_restrict, ?_⟩
  have hne : (0 : Fin 2) ≠ 1 := Fin.zero_ne_one
  exact (depth_of_alone hrun hstop hne).1.trans (row_houseDist n)

/-- In a row of `65537` vertices with houses at its ends the first thread can meet the second at depth
`65536`, which is kept as `0`. -/
theorem row_not_depthsExact :
    (row 65535).numVertices = 65537 ∧
      (∃ trace s, Run (Step (row 65535)) (initial (row 65535)) trace s ∧
        (info s (0 : Fin 2) (1 : Fin 2)).depth = 65536 ∧
        (info (stored s) (0 : Fin 2) (1 : Fin 2)).depth = 0) ∧
      ¬ DepthsExact (row 65535) := by
  obtain ⟨trace, s, hrun, hdepth⟩ := row_depth 65535
  have hcut : (info (stored s) (0 : Fin 2) (1 : Fin 2)).depth = 0 := congrArg (· % 65536) hdepth
  refine ⟨rfl, ⟨trace, s, hrun, hdepth, hcut⟩, fun hexact => ?_⟩
  have hsum : (info (stored s) (0 : Fin 2) (1 : Fin 2)).depth +
      (info s (1 : Fin 2) (0 : Fin 2)).depth % 65536 =
        (info s (0 : Fin 2) (1 : Fin 2)).depth + (info s (1 : Fin 2) (0 : Fin 2)).depth :=
    hexact.sums trace s ((0 : Fin 2), (1 : Fin 2)) hrun
  omega

end Multicore.Reference
