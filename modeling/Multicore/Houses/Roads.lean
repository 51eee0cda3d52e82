import Multicore.Houses.Model

/-!
# The vertex table

What `InsertEdge` leaves in the table: the adjacency lists are the graph, and the house slot of a
vertex holds a house next to it whenever there is one. When the houses lie at least three roads apart
no vertex has two of them as neighbours, so the slot holds the only one.
-/

namespace Multicore.Houses

section Table

variable {V : Type*} [DecidableEq V] {houseVertice : V → Bool} {vertice : V → Vertex V}

theorem mem_adjacency_insertEdge {first second v w : V} :
    w ∈ (insertEdge houseVertice vertice first second v).adjacency ↔
      w ∈ (vertice v).adjacency ∨ (v = first ∧ w = second) := by
  by_cases hv : v = first
  · subst hv
    simp [insertEdge]
  · simp [insertEdge, hv]

theorem mem_adjacency_readEdges {edges : List (V × V)} {v w : V} :
    w ∈ (readEdges houseVertice edges vertice v).adjacency ↔
      w ∈ (vertice v).adjacency ∨ (v, w) ∈ edges ∨ (w, v) ∈ edges := by
  induction edges generalizing vertice with
  | nil => simp [readEdges]
  | cons edge edges ih =>
    change w ∈ (readEdges houseVertice edges (readEdge houseVertice vertice edge) v).adjacency ↔ _
    rw [ih, readEdge, mem_adjacency_insertEdge, mem_adjacency_insertEdge]
    simp only [List.mem_cons, Prod.ext_iff]
    tauto

/-- The slots agree with the adjacency lists. -/
def SlotsFilled (houseVertice : V → Bool) (vertice : V → Vertex V) : Prop :=
  ∀ v, (∀ h, (vertice v).house = some h → houseVertice h ∧ h ∈ (vertice v).adjacency) ∧
    ((vertice v).house = none → ∀ w ∈ (vertice v).adjacency, houseVertice w = false)

theorem slotsFilled_insertEdge (hfilled : SlotsFilled houseVertice vertice) (first second : V) :
    SlotsFilled houseVertice (insertEdge houseVertice vertice first second) := by
  intro v
  by_cases hv : v = first
  · subst hv
    obtain ⟨hsome, hnone⟩ := hfilled v
    simp only [insertEdge, Function.update_self, List.mem_append, List.mem_singleton]
    split
    · rename_i hhouse
      refine ⟨fun h heq => ?_, fun heq => absurd heq (Option.some_ne_none _)⟩
      cases heq
      exact ⟨hhouse, .inr rfl⟩
    · rename_i hhouse
      refine ⟨fun h heq => ⟨(hsome h heq).1, .inl (hsome h heq).2⟩, fun heq w hw => ?_⟩
      obtain hw | rfl := hw
      · exact hnone heq w hw
      · exact Bool.eq_false_iff.2 hhouse
  · rw [show insertEdge houseVertice vertice first second v = vertice v from
      Function.update_of_ne hv _ _]
    exact hfilled v

theorem slotsFilled_readEdges (hfilled : SlotsFilled houseVertice vertice) (edges : List (V × V)) :
    SlotsFilled houseVertice (readEdges houseVertice edges vertice) := by
  induction edges generalizing vertice with
  | nil => exact hfilled
  | cons edge edges ih =>
    exact ih (slotsFilled_insertEdge (slotsFilled_insertEdge hfilled edge.1 edge.2) edge.2 edge.1)

end Table

namespace Layout

variable {layout : Layout} {u v : Fin layout.verticeNum} {i j : Fin layout.houseNum}

theorem mem_adjacency : v ∈ (layout.vertice u).adjacency ↔ (u, v) ∈ layout.edges ∨ (v, u) ∈ layout.edges := by
  rw [Layout.vertice, mem_adjacency_readEdges]
  simp

theorem eq_or_adj_of_mem_adjacency (hmem : v ∈ (layout.vertice u).adjacency) :
    u = v ∨ layout.graph.Adj u v := by
  by_cases heq : u = v
  · exact .inl heq
  · exact .inr (edgeGraph_adj.2 ⟨heq, mem_adjacency.1 hmem⟩)

theorem mem_adjacency_of_adj (hadj : layout.graph.Adj u v) : v ∈ (layout.vertice u).adjacency :=
  mem_adjacency.2 (edgeGraph_adj.1 hadj).2

theorem slotsFilled : SlotsFilled layout.houseVertice layout.vertice := by
  apply slotsFilled_readEdges
  intro v
  simp

theorem dist_slot_le (hslot : (layout.vertice u).house = some v) : layout.graph.dist u v ≤ 1 := by
  obtain rfl | hadj := eq_or_adj_of_mem_adjacency ((slotsFilled u).1 v hslot).2
  · rw [SimpleGraph.dist_self]
    exact Nat.zero_le 1
  · exact (SimpleGraph.dist_eq_one_iff_adj.2 hadj).le

theorem exists_house_of_slot (hslot : (layout.vertice u).house = some v) : ∃ i, layout.house i = v := by
  have hhouse := ((slotsFilled u).1 v hslot).1
  exact of_decide_eq_true hhouse

/-- Next to a house the slot is not empty. -/
theorem exists_slot_of_adj (hadj : layout.graph.Adj u (layout.house i)) :
    ∃ j, (layout.vertice u).house = some (layout.house j) := by
  cases hslot : (layout.vertice u).house with
  | none =>
    have hfalse := (slotsFilled u).2 hslot _ (mem_adjacency_of_adj hadj)
    rw [houseVertice, decide_eq_false_iff_not] at hfalse
    exact absurd ⟨i, rfl⟩ hfalse
  | some h =>
    obtain ⟨j, rfl⟩ := exists_house_of_slot hslot
    exact ⟨j, rfl⟩

theorem houseDist_comm (i j : Fin layout.houseNum) : layout.houseDist i j = layout.houseDist j i :=
  SimpleGraph.dist_comm

end Layout

namespace Input

variable {input : Input} {u : Fin input.verticeNum} {i j : Fin input.houseNum}

theorem houseDist_triangle (i j k : Fin input.houseNum) :
    input.houseDist i k ≤ input.houseDist i j + input.houseDist j k :=
  input.connected.dist_triangle

theorem houseDist_pos (hne : i ≠ j) : 0 < input.houseDist i j :=
  input.connected.pos_dist_of_ne fun heq => hne (input.house_injective heq)

theorem houseDist_le_intMax (i j : Fin input.houseNum) : input.houseDist i j ≤ intMax := by
  have hlt : input.houseDist i j < Fintype.card (Fin input.verticeNum) := dist_lt_card input.connected
  rw [Fintype.card_fin] at hlt
  exact hlt.le.trans input.verticeNum_le

/-- At least three houses, any two of them at least three roads apart. -/
def SpreadOut (input : Input) : Prop :=
  3 ≤ input.houseNum ∧ ∀ i j, i ≠ j → 3 ≤ input.houseDist i j

/-- No vertex is next to two houses that lie apart, so the slot is not overwritten. -/
theorem SpreadOut.slot_of_adj (hspread : input.SpreadOut) (hadj : input.graph.Adj u (input.house i)) :
    (input.vertice u).house = some (input.house i) := by
  obtain ⟨j, hslot⟩ := Layout.exists_slot_of_adj hadj
  have hij : i = j := by
    by_contra hne
    have hfar := hspread.2 i j hne
    have hnear : input.houseDist i j ≤ 1 + 1 := by
      have htriangle := input.connected.dist_triangle (u := input.house i) (v := u) (w := input.house j)
      have hiu : input.graph.dist (input.house i) u = 1 :=
        SimpleGraph.dist_eq_one_iff_adj.2 hadj.symm
      have huj : input.graph.dist u (input.house j) ≤ 1 := Layout.dist_slot_le hslot
      exact htriangle.trans (add_le_add hiu.le huj)
    omega
  rw [hij]
  exact hslot

end Input

end Multicore.Houses
