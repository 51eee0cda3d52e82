import Mathlib.Data.Fin.VecNotation
import Multicore.Houses.Records

/-!
# How a call keeps track of levels

`Search` has no depth with its vertices and no fence between its levels: it infers the distance of the
vertex under visit from `i`, `cycle_count` and `total_count` alone. This is right in any graph, for any
start, whatever `visit_house` and the shared arrays hold, and whatever the other calls do. Nothing is
said of a call that has come to the end of its search array, where the source goes on with entries
that nobody wrote.
-/

namespace Multicore.Houses

variable {layout : Layout} {pruning : Bool} {start : Fin layout.houseNum} {u : Fin layout.verticeNum}
  {c : Search layout.houseNum (Fin layout.verticeNum)}
  {s : State layout.houseNum (Fin layout.verticeNum)}

/-- The search array of the call for `start` is in breadth-first order. -/
abbrev InOrder (layout : Layout) (start : Fin layout.houseNum)
    (c : Search layout.houseNum (Fin layout.verticeNum)) : Prop :=
  Ordered (fun v => (layout.vertice v).adjacency) (layout.house start) c

/-- The search array holds the vertices met so far, each once, in the order of their distances, and
`distance` is that of the vertex under visit. -/
structure LevelsTracked (layout : Layout) (start : Fin layout.houseNum)
    (c : Search layout.houseNum (Fin layout.verticeNum)) : Prop where
  nodup : c.searchArray.Nodup
  length_le : c.searchArray.length ≤ layout.verticeNum
  marked_iff : ∀ v, c.visitVertice v = true ↔ v ∈ c.searchArray
  reachable : ∀ v ∈ c.searchArray, layout.graph.Reachable (layout.house start) v
  sorted : c.searchArray.Pairwise fun u v =>
    layout.graph.dist (layout.house start) u ≤ layout.graph.dist (layout.house start) v
  distance_eq : ∀ u, c.searchArray[c.i]? = some u →
    c.distance = layout.graph.dist (layout.house start) u

section Ordered

variable (h : InOrder layout start c)

include h

/-- The vertex under visit is on no level before: those have been visited. -/
theorem Ordered.distance_eq (hu : c.searchArray[c.i]? = some u) :
    c.distance = layout.graph.dist (layout.house start) u := by
  obtain ⟨hreach, hle⟩ := Layout.mem_reached.1 (h.mem_level hu)
  refine le_antisymm ?_ hle
  by_contra hlt
  have hbefore := h.mem_before (not_le.1 hlt) (Layout.mem_reached.2 ⟨hreach, le_rfl⟩)
  obtain ⟨k, hk, hget⟩ := hbefore
  have hsame : k = c.i :=
    (List.getElem?_inj (lt_length_of_getElem? hget) h.nodup).1 (hget.trans hu.symm)
  exact absurd hsame hk.ne

theorem Ordered.levelsTracked : LevelsTracked layout start c where
  nodup := h.nodup
  length_le := by
    have hcard := h.nodup.length_le_card
    rwa [Fintype.card_fin] at hcard
  marked_iff := h.flag_iff
  reachable v hv := (Layout.mem_reached.1 (h.array_extended.subset hv)).1
  sorted :=
    (pairwise_dist_breadthFirst (fun _ _ => Layout.eq_or_adj_of_mem_adjacency)
      fun _ _ => Layout.mem_adjacency_of_adj).sublist h.array_extended.sublist
  distance_eq _ hu := h.distance_eq hu

/-! ### The steps of a call -/

variable (hu : c.searchArray[c.i]? = some u)

include hu

theorem Ordered.checkEnd : InOrder layout start (c.checkEnd layout u) := by
  rw [Search.checkEnd]
  split
  · exact h.relabel .compareMost _ _ _ _ _ _
  · exact h.expand hu

theorem Ordered.updateExtremes : InOrder layout start (c.updateExtremes layout pruning u) := by
  rw [Search.updateExtremes]
  split
  · dsimp only
    split
    · exact h.relabel (.testIMax layout.firstHouse) _ _ _ _ c.distance _
    · exact (h.relabel _ _ _ _ _ c.distance _).checkEnd hu
  · split
    · exact (h.relabel _ _ _ false c.distance _ _).checkEnd hu
    · exact h.checkEnd hu

theorem Ordered.visit : InOrder layout start (c.visit layout pruning start u) := by
  rw [Search.visit]
  split
  · exact h.expand hu
  · rename_i x _
    split
    · exact h.expand hu
    · have hmarked := h.relabel c.pc (Function.update c.visitHouse x true) c.countEnd c.leastFlag c.least
        c.most c.sum
      rw [Search.findHouse]
      dsimp only
      split
      · exact hmarked.relabel _ _ _ _ _ _ _
      · exact hmarked.updateExtremes hu

theorem Ordered.nextQ (q : Fin layout.houseNum) : InOrder layout start (c.nextQ layout u q) := by
  rw [Search.nextQ]
  split
  · exact h.relabel _ _ _ _ _ _ _
  · exact h.checkEnd hu

end Ordered

theorem inOrder_setCall (s : State layout.houseNum (Fin layout.verticeNum)) (h : InOrder layout start c) :
    InOrder layout start ((s.setCall start c).call start) := by
  rw [State.setCall_call_self]
  exact h

theorem inOrder_stepAt (h : InOrder layout start (s.call start))
    (hu : (s.call start).searchArray[(s.call start).i]? = some u) :
    InOrder layout start ((stepAt layout pruning s start (s.call start) u).call start) := by
  have hmoves : ∀ pc sum, InOrder layout start { s.call start with pc := pc, sum := sum } :=
    fun pc sum => h.relabel pc _ _ _ _ _ sum
  rw [stepAt]
  cases (s.call start).pc <;> dsimp only
  case visit => exact inOrder_setCall _ (h.visit hu)
  case recordDistance j => exact inOrder_setCall _ (h.updateExtremes hu)
  case testIMax q =>
    split
    · split
      · exact inOrder_setCall _ (hmoves _ _)
      · exact inOrder_setCall _ (h.nextQ hu q)
    · exact inOrder_setCall _ (h.checkEnd hu)
  case testDistance q =>
    split
    · exact inOrder_setCall _ (hmoves _ _)
    · exact inOrder_setCall _ (h.nextQ hu q)
  case compareTotal q =>
    split
    · exact inOrder_setCall _ (hmoves _ _)
    · exact inOrder_setCall _ (h.nextQ hu q)
  case returned => exact h
  all_goals exact inOrder_setCall _ (hmoves _ _)

/-! ### Every call -/

/-- A call that has neither returned nor come to the end of its search array, for any house. -/
def Searching (layout : Layout) (s : State layout.houseNum (Fin layout.verticeNum))
    (start : Fin layout.houseNum) : Prop :=
  (s.call start).pc ≠ .returned ∧ (s.call start).i < (s.call start).searchArray.length

/-- The calls for all houses, that for the last one included, interleaved in any order. -/
abbrev StepAny (layout : Layout) (pruning : Bool) := Fires (Searching layout) (effect layout pruning)

theorem inOrder_stepAny {other : Fin layout.houseNum}
    {s' : State layout.houseNum (Fin layout.verticeNum)} (h : InOrder layout start (s.call start))
    (hstep : StepAny layout pruning s other s') : InOrder layout start (s'.call start) := by
  obtain ⟨hsearching, rfl⟩ := hstep
  by_cases hne : start = other
  · subst hne
    have hu := List.getElem?_eq_getElem hsearching.2
    rw [effect, hu]
    exact inOrder_stepAt h hu
  · rw [call_effect_of_ne hne]
    exact h

theorem stepAny_of_step {other : Fin layout.houseNum}
    {s' : State layout.houseNum (Fin layout.verticeNum)} (hstep : Step layout pruning s other s') :
    StepAny layout pruning s other s' :=
  ⟨hstep.1.2, hstep.2⟩

/-- A call that starts with `visit_vertice` cleared keeps track of the levels, in any graph and from any
house, whatever else is in memory. -/
theorem levels_tracked {s₀ : State layout.houseNum (Fin layout.verticeNum)}
    {visitHouse : Fin layout.verticeNum → Bool} {trace : List (Fin layout.houseNum)}
    (hcall : s₀.call start = { initialCall layout start with visitHouse := visitHouse })
    (hrun : Run (StepAny layout pruning) s₀ trace s) : LevelsTracked layout start (s.call start) := by
  apply Ordered.levelsTracked
  apply hrun.invariant (P := fun _ s => InOrder layout start (s.call start))
  · rw [hcall]
    exact ordered_initialCall.relabel _ visitHouse _ _ _ _ _
  · intro trace s other s' _ h hstep
    exact inOrder_stepAny h hstep

/-- Two islands. On the first, the houses `0` and `3` are two roads apart. -/
def twoIslands : Layout where
  verticeNum := 8
  houseNum := 5
  house := ![0, 3, 7, 5, 4]
  edges := [(0, 1), (1, 2), (1, 3), (3, 6), (4, 5), (5, 7)]
  two_le_houseNum := by decide

/-- The call for house `0` after four steps is about to visit house `3`. -/
theorem levels_tracked_twoIslands :
    let s := execute (effect twoIslands true) (initial twoIslands) (List.replicate 4 twoIslands.firstHouse)
    (s.call twoIslands.firstHouse).searchArray[(s.call twoIslands.firstHouse).i]? =
        some (twoIslands.house (1 : Fin 5)) ∧
      (s.call twoIslands.firstHouse).distance = 2 ∧
      twoIslands.graph.dist (twoIslands.house twoIslands.firstHouse) (twoIslands.house (1 : Fin 5)) = 2 := by
  intro s
  have hrun : Run (Step twoIslands true) (initial twoIslands)
      (List.replicate 4 twoIslands.firstHouse).reverse s := run_execute (by decide +kernel)
  have hcurrent : (s.call twoIslands.firstHouse).searchArray[(s.call twoIslands.firstHouse).i]? =
      some (twoIslands.house (1 : Fin 5)) := by decide +kernel
  have hdistance : (s.call twoIslands.firstHouse).distance = 2 := by decide +kernel
  have htracked : LevelsTracked twoIslands twoIslands.firstHouse (s.call twoIslands.firstHouse) :=
    levels_tracked rfl (hrun.mono fun _ _ _ => stepAny_of_step)
  exact ⟨hcurrent, hdistance, (htracked.distance_eq _ hcurrent).symm.trans hdistance⟩

end Multicore.Houses
