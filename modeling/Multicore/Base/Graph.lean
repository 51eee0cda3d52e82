import Mathlib.Combinatorics.SimpleGraph.Metric
import Mathlib.Combinatorics.SimpleGraph.Paths

/-!
# Distances and level-by-level exploration

A breadth-first search numbers the vertices by their distance from where it starts. `Explored` says
how far such a search has come: the vertices it has seen, those of them whose neighbours it has all
seen, and the level it is working on. Its rules are the moves every implementation is made of, so a
search is correct once each of its steps is one of them.
-/

namespace Multicore

variable {V : Type*}

/-- The undirected graph of a list of edges. A loop joins nothing. -/
def edgeGraph (edges : List (V × V)) : SimpleGraph V :=
  SimpleGraph.fromRel fun u v => (u, v) ∈ edges

instance [DecidableEq V] (edges : List (V × V)) : DecidableRel (edgeGraph edges).Adj :=
  fun u v => inferInstanceAs (Decidable (u ≠ v ∧ ((u, v) ∈ edges ∨ (v, u) ∈ edges)))

/-- How many ends of edges lie at a vertex; a loop has both. -/
def incidence [DecidableEq V] (edges : List (V × V)) (v : V) : ℕ :=
  edges.countP (fun e => e.1 = v) + edges.countP (fun e => e.2 = v)

theorem edgeGraph_adj {edges : List (V × V)} {u v : V} :
    (edgeGraph edges).Adj u v ↔ u ≠ v ∧ ((u, v) ∈ edges ∨ (v, u) ∈ edges) :=
  SimpleGraph.fromRel_adj _ u v

variable {G : SimpleGraph V} {src u v w : V} {k : ℕ}

/-! ### Distances -/

section Distance

theorem dist_le_succ (hreach : G.Reachable src u) (hadj : G.Adj u v) :
    G.dist src v ≤ G.dist src u + 1 := by
  obtain ⟨walk, hlen⟩ := hreach.exists_walk_length_eq_dist
  rw [← hlen, ← walk.length_concat hadj]
  exact SimpleGraph.dist_le _

/-- Every vertex but the source has a neighbour one step closer to it. -/
theorem exists_adj_of_dist_eq_succ (hdist : G.dist src v = k + 1) :
    ∃ u, G.Adj u v ∧ G.dist src u = k := by
  have hne : G.dist v src ≠ 0 := by
    rw [SimpleGraph.dist_comm, hdist]
    exact Nat.succ_ne_zero k
  obtain ⟨walk, hlen⟩ := (SimpleGraph.Reachable.of_dist_ne_zero hne).exists_walk_length_eq_dist
  rw [SimpleGraph.dist_comm, hdist] at hlen
  cases walk with
  | nil => simp at hlen
  | @cons _ u _ hadj rest =>
    rw [SimpleGraph.Walk.length_cons] at hlen
    have hle : G.dist src u ≤ k := by
      rw [SimpleGraph.dist_comm]
      exact (SimpleGraph.dist_le rest).trans (by omega)
    have hge : G.dist src v ≤ G.dist src u + 1 := dist_le_succ rest.reachable.symm hadj.symm
    exact ⟨u, hadj.symm, by omega⟩

/-- A vertex at every distance up to that of `v`, on a shortest path to it. -/
theorem exists_between (hconn : G.Connected) (hle : k ≤ G.dist u v) :
    ∃ w, G.dist u w = k ∧ G.dist w v = G.dist u v - k := by
  induction hgap : G.dist u v - k generalizing k with
  | zero => exact ⟨v, by omega, SimpleGraph.dist_self⟩
  | succ gap ih =>
    obtain ⟨w, hw, hwv⟩ := ih (k := k + 1) (by omega) (by omega)
    obtain ⟨x, hadj, hx⟩ := exists_adj_of_dist_eq_succ hw
    have hxv : G.dist x v ≤ gap + 1 := by
      have htriangle := hconn.dist_triangle (u := x) (v := w) (w := v)
      rw [SimpleGraph.dist_eq_one_iff_adj.2 hadj] at htriangle
      omega
    have huv := hconn.dist_triangle (u := u) (v := x) (w := v)
    exact ⟨x, hx, by omega⟩

theorem dist_lt_card [Fintype V] (hconn : G.Connected) : G.dist u v < Fintype.card V := by
  obtain ⟨path, hpath, hlen⟩ := hconn.exists_path_of_dist u v
  rw [← hlen]
  exact hpath.length_lt

/-- A function that grows by at most one along every edge bounds distances from below. -/
theorem le_add_dist (hconn : G.Connected) (f : V → ℕ) (hstep : ∀ u v, G.Adj u v → f v ≤ f u + 1) :
    f v ≤ f u + G.dist u v := by
  obtain ⟨walk, hlen⟩ := hconn.exists_walk_length_eq_dist u v
  rw [← hlen]
  clear hlen
  induction walk with
  | nil => simp
  | cons hadj rest ih =>
    have hnext := hstep _ _ hadj
    rw [SimpleGraph.Walk.length_cons]
    omega

/-- A graph in which every vertex but `root` has a neighbour of smaller rank is connected. -/
theorem connected_of_descent (root : V) (rank : V → ℕ)
    (hdown : ∀ v, v ≠ root → ∃ u, G.Adj v u ∧ rank u < rank v) : G.Connected := by
  have hreach : ∀ v, G.Reachable v root := by
    intro v
    induction hrank : rank v using Nat.strong_induction_on generalizing v with
    | _ r ih =>
      by_cases hroot : v = root
      · rw [hroot]
      · obtain ⟨u, hadj, hlt⟩ := hdown v hroot
        exact hadj.reachable.trans (ih (rank u) (hrank ▸ hlt) u rfl)
  have : Nonempty V := ⟨root⟩
  exact ⟨fun u v => (hreach u).trans (hreach v).symm⟩

/-- The rank bounds the distance from `root`. -/
theorem dist_le_of_descent (root : V) (rank : V → ℕ)
    (hdown : ∀ v, v ≠ root → ∃ u, G.Adj v u ∧ rank u < rank v) : G.dist root v ≤ rank v := by
  have hconn := connected_of_descent root rank hdown
  induction hrank : rank v using Nat.strong_induction_on generalizing v with
  | _ r ih =>
    by_cases hroot : v = root
    · rw [hroot, SimpleGraph.dist_self]
      exact Nat.zero_le r
    · obtain ⟨u, hadj, hlt⟩ := hdown v hroot
      have hu := ih (rank u) (hrank ▸ hlt) rfl
      have hv : G.dist root v ≤ G.dist root u + 1 := dist_le_succ (hconn root u) hadj.symm
      omega

end Distance

/-! ### Exploration by levels -/

/-- A search from `src` has seen the vertices `seen`, has seen all neighbours of those in `closed`,
and is working on the vertices at distance `level`. -/
structure Explored (G : SimpleGraph V) (src : V) (seen closed : Set V) (level : ℕ) : Prop where
  complete : ∀ v, G.dist src v ≤ level → v ∈ seen
  bounded : ∀ v ∈ seen, G.dist src v ≤ level + 1
  adj_mem : ∀ u ∈ closed, ∀ v, G.Adj u v → v ∈ seen

namespace Explored

variable {seen closed : Set V} {level : ℕ}

theorem start (hconn : G.Connected) : Explored G src {src} ∅ 0 := by
  refine ⟨fun v hv => ?_, fun v hv => ?_, fun u hu => absurd hu (Set.notMem_empty u)⟩
  · have hzero : G.dist src v = 0 := by omega
    exact ((hconn.dist_eq_zero_iff).1 hzero).symm
  · rw [Set.mem_singleton_iff.1 hv, SimpleGraph.dist_self]
    exact Nat.zero_le _

theorem src_mem (h : Explored G src seen closed level) : src ∈ seen :=
  h.complete src (by rw [SimpleGraph.dist_self]; exact Nat.zero_le _)

/-- What a vertex of the current level shows for the first time lies on the next level. -/
theorem dist_of_new (h : Explored G src seen closed level) (hconn : G.Connected)
    (hu : G.dist src u = level) (hadj : G.Adj u v) (hnew : v ∉ seen) :
    G.dist src v = level + 1 := by
  have hle : G.dist src v ≤ level + 1 := hu ▸ dist_le_succ (hconn src u) hadj
  have hlt : ¬ G.dist src v ≤ level := fun hv => hnew (h.complete v hv)
  omega

theorem discover (h : Explored G src seen closed level) (hv : G.dist src v = level + 1) :
    Explored G src (insert v seen) closed level := by
  refine ⟨fun w hw => Set.mem_insert_of_mem _ (h.complete w hw), ?_,
    fun u hu w hadj => Set.mem_insert_of_mem _ (h.adj_mem u hu w hadj)⟩
  rintro w (rfl | hw)
  · exact hv.le
  · exact h.bounded w hw

theorem close (h : Explored G src seen closed level) (hall : ∀ v, G.Adj u v → v ∈ seen) :
    Explored G src seen (insert u closed) level := by
  refine ⟨h.complete, h.bounded, ?_⟩
  rintro x (rfl | hx)
  · exact hall
  · exact h.adj_mem x hx

/-- When the whole level is closed the search goes on to the next one. -/
theorem next (h : Explored G src seen closed level)
    (hlevel : ∀ u, G.dist src u = level → u ∈ closed) : Explored G src seen closed (level + 1) := by
  refine ⟨fun v hv => ?_, fun v hv => (h.bounded v hv).trans (Nat.le_succ _), h.adj_mem⟩
  by_cases hle : G.dist src v ≤ level
  · exact h.complete v hle
  · have heq : G.dist src v = level + 1 := by omega
    obtain ⟨u, hadj, hu⟩ := exists_adj_of_dist_eq_succ heq
    exact h.adj_mem u (hlevel u hu) v hadj

/-- A search with nothing left to close has seen every vertex. -/
theorem mem_of_all_closed (h : Explored G src seen closed level)
    (hall : ∀ u ∈ seen, u ∈ closed) (v : V) : v ∈ seen := by
  induction hdist : G.dist src v generalizing v with
  | zero => exact h.complete v (by omega)
  | succ d ih =>
    obtain ⟨u, hadj, hu⟩ := exists_adj_of_dist_eq_succ hdist
    exact h.adj_mem u (hall u (ih u hu)) v hadj

end Explored

end Multicore
