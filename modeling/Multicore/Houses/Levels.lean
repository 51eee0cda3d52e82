import Multicore.Base.Index
import Multicore.Houses.Roads

/-!
# The level-counting search

`Search` keeps the vertices in the order it first saw them and has no queue: `i` runs over the array,
`cycle_count` is the index of the last vertex of the level `i` is on, and `total_count` counts the
vertices seen behind it. `Levels` says that this is a breadth-first search: the array is sorted by
distance from the start, and `distance` is the distance of the vertex under visit.
-/

namespace Multicore.Houses

variable {n : ℕ} {V : Type*} {G : SimpleGraph V} {src u v : V} {c : Search n V}

/-- The vertices of the search array before index `m`. -/
def Search.before (c : Search n V) (m : ℕ) : Set V := {v | ∃ k < m, c.searchArray[k]? = some v}

structure Levels (G : SimpleGraph V) (src : V) (c : Search n V) : Prop where
  explored : Explored G src {v | v ∈ c.searchArray} (c.before c.i) c.distance
  flag_iff : ∀ v, c.visitVertice v = true ↔ v ∈ c.searchArray
  nodup : c.searchArray.Nodup
  sorted : ∀ (k l : ℕ) u v, k ≤ l → c.searchArray[k]? = some u → c.searchArray[l]? = some v →
    G.dist src u ≤ G.dist src v
  level_iff : ∀ (k : ℕ) v, c.searchArray[k]? = some v → (k ≤ c.cycleCount ↔ G.dist src v ≤ c.distance)
  ahead : ∀ (k : ℕ) v, c.i ≤ k → c.searchArray[k]? = some v → c.distance ≤ G.dist src v
  length_eq : c.searchArray.length = c.cycleCount + c.totalCount + 1
  index : c.i ≤ c.cycleCount ∨ (c.i = c.cycleCount + 1 ∧ c.totalCount = 0)

namespace Levels

theorem index_le (hlevels : Levels G src c) (hu : c.searchArray[c.i]? = some u) :
    c.i ≤ c.cycleCount := by
  have hlt := lt_length_of_getElem? hu
  have hlen := hlevels.length_eq
  obtain hle | ⟨heq, hzero⟩ := hlevels.index
  · exact hle
  · omega

/-- `distance` is the distance of the vertex under visit. -/
theorem dist_current (hlevels : Levels G src c) (hu : c.searchArray[c.i]? = some u) :
    G.dist src u = c.distance :=
  le_antisymm ((hlevels.level_iff c.i u hu).1 (hlevels.index_le hu)) (hlevels.ahead c.i u le_rfl hu)

theorem dist_before_le (hlevels : Levels G src c) (hi : c.i < c.searchArray.length)
    (hv : v ∈ c.before (c.i + 1)) : G.dist src v ≤ c.distance := by
  obtain ⟨k, hk, hget⟩ := hv
  have hcur := List.getElem?_eq_getElem hi
  rw [← hlevels.dist_current hcur]
  exact hlevels.sorted k c.i v _ (by omega) hget hcur

/-- Vertices nearer than the one under visit have been visited. -/
theorem mem_before_of_dist_lt (hlevels : Levels G src c) (hlt : G.dist src v < c.distance) :
    v ∈ c.before c.i := by
  obtain ⟨k, hk, hget⟩ := List.mem_iff_getElem.1 (hlevels.explored.complete v hlt.le)
  have hget' : c.searchArray[k]? = some v := by rw [List.getElem?_eq_getElem hk, hget]
  refine ⟨k, ?_, hget'⟩
  by_contra hge
  have hahead := hlevels.ahead k v (not_lt.1 hge) hget'
  omega

/-- A search that has come to the end of its array has visited every vertex. -/
theorem mem_before_of_end (hlevels : Levels G src c) (hend : c.searchArray.length ≤ c.i) (v : V) :
    v ∈ c.before c.i := by
  have hall : ∀ u ∈ {u | u ∈ c.searchArray}, u ∈ c.before c.i := by
    intro u hu
    obtain ⟨k, hk, hget⟩ := List.mem_iff_getElem.1 hu
    exact ⟨k, by omega, by rw [List.getElem?_eq_getElem hk, hget]⟩
  exact hall v (hlevels.explored.mem_of_all_closed hall v)

theorem length_le_card [Fintype V] (hlevels : Levels G src c) :
    c.searchArray.length ≤ Fintype.card V :=
  hlevels.nodup.length_le_card

end Levels

/-! ### Visiting the neighbours -/

section Push

variable [DecidableEq V]

@[simp] theorem push_i : (c.push v).i = c.i := by
  rw [Search.push]
  split <;> rfl

@[simp] theorem push_distance : (c.push v).distance = c.distance := by
  rw [Search.push]
  split <;> rfl

theorem prefix_push : c.searchArray <+: (c.push v).searchArray := by
  rw [Search.push]
  split
  · exact List.prefix_refl _
  · exact List.prefix_append _ _

theorem mem_push (hlevels : Levels G src c) : v ∈ (c.push v).searchArray := by
  rw [Search.push]
  split
  · exact (hlevels.flag_iff v).1 ‹_›
  · exact List.mem_append_right _ (List.mem_singleton_self v)

theorem levels_push (hlevels : Levels G src c) (hconn : G.Connected)
    (hu : c.searchArray[c.i]? = some u) (hadj : u = v ∨ G.Adj u v) : Levels G src (c.push v) := by
  by_cases hvisited : c.visitVertice v
  · rwa [Search.push, if_pos hvisited]
  · have hnew : v ∉ c.searchArray := fun hmem => hvisited ((hlevels.flag_iff v).2 hmem)
    have hv : G.dist src v = c.distance + 1 := by
      obtain rfl | hadj := hadj
      · exact absurd (List.mem_of_getElem? hu) hnew
      · exact hlevels.explored.dist_of_new hconn (hlevels.dist_current hu) hadj hnew
    rw [Search.push, if_neg hvisited]
    have hlen := hlevels.length_eq
    constructor
    case explored =>
      have hdiscover := hlevels.explored.discover hv
      have hseen : {w | w ∈ c.searchArray ++ [v]} = insert v {w | w ∈ c.searchArray} := by
        ext w
        simp [or_comm]
      have hbefore : ∀ w, (∃ k < c.i, (c.searchArray ++ [v])[k]? = some w) ↔
          ∃ k < c.i, c.searchArray[k]? = some w := by
        intro w
        have hi := lt_length_of_getElem? hu
        refine exists_congr fun k => and_congr_right fun hk => ?_
        rw [List.getElem?_append_left (by omega)]
      rw [← hseen] at hdiscover
      exact ⟨hdiscover.complete, hdiscover.bounded,
        fun w hw => hdiscover.adj_mem w ((hbefore w).1 hw)⟩
    case flag_iff =>
      intro w
      by_cases hw : w = v
      · subst hw
        simp
      · simp [hlevels.flag_iff w, hw]
    case nodup =>
      rw [List.nodup_append]
      refine ⟨hlevels.nodup, List.nodup_singleton v, fun a ha b hb heq => hnew ?_⟩
      rw [List.mem_singleton] at hb
      rwa [← hb, ← heq]
    case sorted =>
      intro k l a b hkl ha hb
      have hbound : ∀ x ∈ c.searchArray, G.dist src x ≤ G.dist src v := by
        intro x hx
        rw [hv]
        exact hlevels.explored.bounded x hx
      obtain hb | ⟨hl, rfl⟩ := getElem?_append_singleton hb
      · have hlt : l < c.searchArray.length := lt_length_of_getElem? hb
        obtain ha | ⟨hk, _⟩ := getElem?_append_singleton ha
        · exact hlevels.sorted k l a b hkl ha hb
        · omega
      · obtain ha | ⟨hk, rfl⟩ := getElem?_append_singleton ha
        · exact hbound a (List.mem_of_getElem? ha)
        · exact le_rfl
    case level_iff =>
      intro k w hw
      obtain hw | ⟨hk, rfl⟩ := getElem?_append_singleton hw
      · exact hlevels.level_iff k w hw
      · show k ≤ c.cycleCount ↔ G.dist src w ≤ c.distance
        omega
    case ahead =>
      intro k w hk hw
      obtain hw | ⟨_, rfl⟩ := getElem?_append_singleton hw
      · exact hlevels.ahead k w hk hw
      · rw [hv]
        exact Nat.le_succ _
    case length_eq =>
      show (c.searchArray ++ [v]).length = c.cycleCount + (c.totalCount + 1) + 1
      rw [List.length_append, List.length_singleton]
      omega
    case index => exact .inl (hlevels.index_le hu)

/-- What the loop over the neighbours of the visited vertex keeps and adds. -/
theorem levels_foldl_push {adjacency : List V} (hlevels : Levels G src c) (hconn : G.Connected)
    (hu : c.searchArray[c.i]? = some u) (hadj : ∀ v ∈ adjacency, u = v ∨ G.Adj u v) :
    Levels G src (adjacency.foldl Search.push c) ∧
      (adjacency.foldl Search.push c).i = c.i ∧
      c.searchArray <+: (adjacency.foldl Search.push c).searchArray ∧
      ∀ v ∈ adjacency, v ∈ (adjacency.foldl Search.push c).searchArray := by
  induction adjacency generalizing c with
  | nil => exact ⟨hlevels, rfl, List.prefix_refl _, fun v hv => absurd hv List.not_mem_nil⟩
  | cons v adjacency ih =>
    have hfirst := levels_push hlevels hconn hu (hadj v List.mem_cons_self)
    have hu' : (c.push v).searchArray[(c.push v).i]? = some u := by
      rw [push_i]
      exact getElem?_of_extended prefix_push hu
    obtain ⟨hrest, hi, hext, hmem⟩ :=
      ih hfirst hu' fun w hw => hadj w (List.mem_cons_of_mem v hw)
    refine ⟨hrest, hi.trans push_i, prefix_push.trans hext, fun w hw => ?_⟩
    obtain rfl | hw := List.mem_cons.1 hw
    · exact hext.subset (mem_push hlevels)
    · exact hmem w hw

end Push

/-! ### The next vertex -/

/-- The visited vertex is closed and the index moves on; at the end of a level the counters do. -/
theorem levels_endLevel (hlevels : Levels G src c) (hu : c.searchArray[c.i]? = some u)
    (hall : ∀ v, G.Adj u v → v ∈ c.searchArray) :
    Levels G src ({ c.endLevel with i := c.endLevel.i + 1, pc := .visit } : Search n V) := by
  have hclosed : Explored G src {v | v ∈ c.searchArray} (c.before (c.i + 1)) c.distance := by
    have hclose := hlevels.explored.close hall
    refine ⟨hclose.complete, hclose.bounded, fun x hx => hclose.adj_mem x ?_⟩
    obtain ⟨k, hk, hget⟩ := hx
    obtain hlt | rfl := Nat.lt_succ_iff_lt_or_eq.1 hk
    · exact Set.mem_insert_of_mem u ⟨k, hlt, hget⟩
    · rw [hu] at hget
      cases hget
      exact Set.mem_insert u _
  by_cases hlast : c.i = c.cycleCount
  · have hnext : Explored G src {v | v ∈ c.searchArray} (c.before (c.i + 1)) (c.distance + 1) := by
      refine hclosed.next fun x hx => ?_
      -- a vertex of this level has an index up to `cycleCount`, which is the current one
      obtain ⟨k, hk, hget⟩ := List.mem_iff_getElem.1 (hlevels.explored.complete x hx.le)
      have hget' : c.searchArray[k]? = some x := by rw [List.getElem?_eq_getElem hk, hget]
      have hle := (hlevels.level_iff k x hget').2 hx.le
      exact ⟨k, by omega, hget'⟩
    rw [Search.endLevel, if_pos hlast]
    refine ⟨hnext, hlevels.flag_iff, hlevels.nodup, hlevels.sorted, ?_, ?_, ?_, ?_⟩
    · intro k w hw
      have hlt : k < c.searchArray.length := lt_length_of_getElem? hw
      have hlen := hlevels.length_eq
      have hbound := hlevels.explored.bounded w (List.mem_of_getElem? hw)
      show k ≤ c.cycleCount + c.totalCount ↔ G.dist src w ≤ c.distance + 1
      omega
    · intro k w hk hw
      have hlevel := hlevels.level_iff k w hw
      have hk' : c.i + 1 ≤ k := hk
      show c.distance + 1 ≤ G.dist src w
      omega
    · exact hlevels.length_eq
    · show c.i + 1 ≤ c.cycleCount + c.totalCount ∨
        (c.i + 1 = c.cycleCount + c.totalCount + 1 ∧ 0 = 0)
      omega
  · have hle := hlevels.index_le hu
    rw [Search.endLevel, if_neg hlast]
    refine ⟨hclosed, hlevels.flag_iff, hlevels.nodup, hlevels.sorted, hlevels.level_iff,
      fun k w hk hw => hlevels.ahead k w (Nat.le_of_succ_le hk) hw, hlevels.length_eq, .inl ?_⟩
    show c.i + 1 ≤ c.cycleCount
    omega

/-- Everything the end of the loop body leaves of the search array. -/
theorem levels_expand [DecidableEq V] {adjacency : List V} (hlevels : Levels G src c)
    (hconn : G.Connected) (hu : c.searchArray[c.i]? = some u)
    (hadj : ∀ v ∈ adjacency, u = v ∨ G.Adj u v) (hall : ∀ v, G.Adj u v → v ∈ adjacency) :
    Levels G src (c.expand adjacency) := by
  obtain ⟨hpush, hi, hext, hmem⟩ := levels_foldl_push hlevels hconn hu hadj
  have hu' : (adjacency.foldl Search.push c).searchArray[(adjacency.foldl Search.push c).i]? = some u := by
    rw [hi]
    exact getElem?_of_extended hext hu
  exact levels_endLevel hpush hu' fun v hv => hmem v (hall v hv)

end Multicore.Houses
