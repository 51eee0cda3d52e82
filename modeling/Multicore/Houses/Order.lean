import Multicore.Base.BreadthFirst
import Multicore.Houses.Finds

/-!
# The order of the search array

In any graph the search array of a call runs through the breadth-first order from its start, and the
counters follow its levels: `distance` is the level of the vertex under visit, and `cycle_count` the
index of the last vertex of that level.
-/

namespace Multicore.Houses

variable {n : ℕ} {V : Type*} [DecidableEq V] {next : V → List V} {src u v : V} {c : Search n V} {d : ℕ}

structure Ordered (next : V → List V) (src : V) (c : Search n V) : Prop where
  array_eq : c.searchArray = (src :: (c.searchArray.take c.i).flatMap next).eraseDups
  flag_iff : ∀ v, c.visitVertice v = true ↔ v ∈ c.searchArray
  level_eq : c.searchArray.take (c.cycleCount + 1) = breadthFirst next src c.distance
  entered : ∀ d < c.distance, (breadthFirst next src d).length ≤ c.i
  length_eq : c.searchArray.length = c.cycleCount + c.totalCount + 1
  index : c.i ≤ c.cycleCount ∨ (c.i = c.cycleCount + 1 ∧ c.totalCount = 0)

namespace Ordered

theorem index_le (h : Ordered next src c) (hi : c.i < c.searchArray.length) : c.i ≤ c.cycleCount := by
  have hlength := h.length_eq
  obtain hle | ⟨heq, hzero⟩ := h.index
  · exact hle
  · omega

/-- The vertices closed so far belong to the level of the one under visit or to a level before. -/
theorem take_extended (h : Ordered next src c) :
    c.searchArray.take c.i <+: breadthFirst next src c.distance := by
  rw [← h.level_eq]
  refine List.take_prefix_take_left ?_
  obtain hle | ⟨heq, -⟩ := h.index
  · exact hle.trans (Nat.le_succ _)
  · exact heq.le

/-- The search array goes no further than the neighbours of the level under visit. -/
theorem array_extended (h : Ordered next src c) :
    c.searchArray <+: breadthFirst next src (c.distance + 1) := by
  rw [h.array_eq, breadthFirst_succ]
  obtain ⟨rest, hrest⟩ := flatMap_extended next h.take_extended
  rw [← hrest]
  exact eraseDups_extended (List.prefix_append (src :: _) rest)

/-- The vertex under visit belongs to its level. -/
theorem mem_level (h : Ordered next src c) (hu : c.searchArray[c.i]? = some u) :
    u ∈ breadthFirst next src c.distance := by
  have hle := h.index_le (lt_length_of_getElem? hu)
  rw [← h.level_eq, List.mem_iff_getElem?]
  exact ⟨c.i, by rw [List.getElem?_take_of_lt (Nat.lt_succ_of_le hle), hu]⟩

/-- Levels before that of the vertex under visit are closed. -/
theorem mem_before (h : Ordered next src c) (hd : d < c.distance)
    (hv : v ∈ breadthFirst next src d) : v ∈ c.before c.i := by
  obtain ⟨k, hk⟩ := List.mem_iff_getElem?.1 hv
  have hlt : k < (breadthFirst next src d).length := lt_length_of_getElem? hk
  have hlevel : breadthFirst next src d <+: c.searchArray := by
    refine (breadthFirst_extended hd.le).trans ?_
    rw [← h.level_eq]
    exact List.take_prefix _ _
  exact ⟨k, hlt.trans_le (h.entered d hd), getElem?_of_extended hlevel hk⟩

theorem nodup (h : Ordered next src c) : c.searchArray.Nodup := by
  rw [h.array_eq]
  exact nodup_eraseDups _

/-- A call at the end of its search array has met every vertex there is to meet. -/
theorem mem_of_end (h : Ordered next src c) (hend : c.searchArray.length ≤ c.i)
    (hv : v ∈ breadthFirst next src d) : v ∈ c.searchArray := by
  have hlength := h.length_eq
  have hlevel : breadthFirst next src c.distance = c.searchArray := by
    rw [← h.level_eq, List.take_of_length_le]
    obtain hle | ⟨-, hzero⟩ := h.index
    · omega
    · omega
  have hstable : breadthFirst next src (c.distance + 1) = breadthFirst next src c.distance := by
    have harray := h.array_eq
    rw [List.take_of_length_le hend, ← hlevel] at harray
    exact harray.symm
  rw [← hlevel]
  obtain hle | hle := le_total d c.distance
  · exact mem_breadthFirst_of_le hle hv
  · rwa [breadthFirst_of_stable hstable hle] at hv

end Ordered

/-! ### Visiting the neighbours -/

/-- What the loop over the neighbours does to the search array and its counter. -/
theorem foldl_push_spec (adjacency : List V) {l : List V} (harray : c.searchArray = l.eraseDups)
    (hflag : ∀ v, c.visitVertice v = true ↔ v ∈ c.searchArray) :
    (adjacency.foldl Search.push c).searchArray = (l ++ adjacency).eraseDups ∧
      (∀ v, (adjacency.foldl Search.push c).visitVertice v = true ↔
        v ∈ (adjacency.foldl Search.push c).searchArray) ∧
      (adjacency.foldl Search.push c).searchArray.length + c.totalCount =
        c.searchArray.length + (adjacency.foldl Search.push c).totalCount := by
  induction adjacency generalizing c l with
  | nil =>
    rw [List.append_nil]
    exact ⟨harray, hflag, rfl⟩
  | cons w adjacency ih =>
    have hmem : w ∈ c.searchArray ↔ w ∈ l := by rw [harray, List.mem_eraseDups]
    have hassoc : l ++ w :: adjacency = l ++ [w] ++ adjacency := by simp
    rw [List.foldl_cons, hassoc]
    by_cases hw : c.visitVertice w = true
    · have hpush : c.push w = c := by rw [Search.push, if_pos hw]
      rw [hpush]
      refine ih ?_ hflag
      rw [eraseDups_concat_of_mem (hmem.1 ((hflag w).1 hw)), harray]
    · have hpush : c.push w =
          { c with
            searchArray := c.searchArray ++ [w]
            visitVertice := Function.update c.visitVertice w true
            totalCount := c.totalCount + 1 } := by
        rw [Search.push, if_neg hw]
      have hnew : w ∉ l := fun hl => hw ((hflag w).2 (hmem.2 hl))
      obtain ⟨hall, hflags, hlength⟩ := ih (c := c.push w) (l := l ++ [w])
        (by rw [hpush, eraseDups_concat_of_notMem hnew, harray])
        (by
          intro v
          rw [hpush]
          by_cases hv : v = w
          · subst hv
            simp
          · simp [hflag v, hv])
      refine ⟨hall, hflags, ?_⟩
      have hcount : (c.push w).totalCount = c.totalCount + 1 := by rw [hpush]
      have harray' : (c.push w).searchArray.length = c.searchArray.length + 1 := by
        rw [hpush, List.length_append, List.length_singleton]
      omega

theorem push_cycleCount : (c.push v).cycleCount = c.cycleCount := by
  rw [Search.push]
  split <;> rfl

section Expand

variable (h : Ordered next src c) (hu : c.searchArray[c.i]? = some u)

include h hu

/-- The array behind the loop over the neighbours: those of the vertex under visit are in it. -/
theorem Ordered.array_foldl_push :
    c.searchArray <+: ((next u).foldl Search.push c).searchArray ∧
      ((next u).foldl Search.push c).searchArray =
        (src :: (((next u).foldl Search.push c).searchArray.take (c.i + 1)).flatMap next).eraseDups := by
  obtain ⟨harray, -, -⟩ := foldl_push_spec (next u) h.array_eq h.flag_iff
  have hgrown : c.searchArray <+: ((next u).foldl Search.push c).searchArray := by
    rw [harray]
    nth_rewrite 1 [h.array_eq]
    exact eraseDups_extended (List.prefix_append _ _)
  have htake : ((next u).foldl Search.push c).searchArray.take (c.i + 1) =
      c.searchArray.take c.i ++ [u] := by
    rw [List.take_add_one, getElem?_of_extended hgrown hu]
    obtain ⟨rest, hrest⟩ := hgrown
    rw [← hrest, List.take_append_of_le_length (lt_length_of_getElem? hu).le]
    rfl
  refine ⟨hgrown, ?_⟩
  rw [htake, List.flatMap_append, harray]
  simp

/-- The visited vertex is closed and the index moves on. -/
theorem Ordered.expand : Ordered next src (c.expand (next u)) := by
  have hle := h.index_le (lt_length_of_getElem? hu)
  have htotal := h.length_eq
  obtain ⟨-, hflag, hlength⟩ := foldl_push_spec (next u) h.array_eq h.flag_iff
  obtain ⟨hgrown, harray⟩ := h.array_foldl_push hu
  have hi := foldl_push_eq Search.i (fun c v => push_i) (next u) c
  have hdistance := foldl_push_eq Search.distance (fun c v => push_distance) (next u) c
  have hcycle := foldl_push_eq Search.cycleCount (fun c v => push_cycleCount) (next u) c
  rw [Search.expand]
  generalize (next u).foldl Search.push c = grown at *
  have hlevel : grown.searchArray.take (c.cycleCount + 1) = breadthFirst next src c.distance := by
    obtain ⟨rest, hrest⟩ := hgrown
    rw [← hrest, List.take_append_of_le_length (by omega), h.level_eq]
  by_cases hlast : c.i = c.cycleCount
  · have hend : grown.endLevel =
        { grown with
          cycleCount := grown.cycleCount + grown.totalCount, totalCount := 0
          distance := grown.distance + 1 } := by
      rw [Search.endLevel, if_pos (by rw [hi, hcycle, hlast])]
    rw [hend]
    constructor
    case array_eq => rwa [hi]
    case flag_iff => exact hflag
    case level_eq =>
      show grown.searchArray.take (grown.cycleCount + grown.totalCount + 1) =
        breadthFirst next src (grown.distance + 1)
      rw [List.take_of_length_le (by omega), breadthFirst_succ, hdistance, ← hlevel, ← hlast, ← harray]
    case entered =>
      intro d hd
      have hd' : d ≤ c.distance := by
        rw [← hdistance]
        exact Nat.lt_succ_iff.1 hd
      calc (breadthFirst next src d).length
        _ ≤ (breadthFirst next src c.distance).length := (breadthFirst_extended hd').length_le
        _ ≤ c.cycleCount + 1 := hlevel ▸ List.length_take_le _ _
        _ = grown.i + 1 := by rw [hi, hlast]
    case length_eq =>
      show grown.searchArray.length = grown.cycleCount + grown.totalCount + 0 + 1
      omega
    case index =>
      show grown.i + 1 ≤ grown.cycleCount + grown.totalCount ∨
        (grown.i + 1 = grown.cycleCount + grown.totalCount + 1 ∧ 0 = 0)
      omega
  · have hend : grown.endLevel = grown := by
      rw [Search.endLevel, if_neg (by rw [hi, hcycle]; exact hlast)]
    rw [hend]
    constructor
    case array_eq => rwa [hi]
    case flag_iff => exact hflag
    case level_eq =>
      show grown.searchArray.take (grown.cycleCount + 1) = breadthFirst next src grown.distance
      rw [hcycle, hdistance, hlevel]
    case entered =>
      intro d hd
      show (breadthFirst next src d).length ≤ grown.i + 1
      have hentered := h.entered d (hdistance ▸ hd)
      omega
    case length_eq =>
      show grown.searchArray.length = grown.cycleCount + grown.totalCount + 1
      omega
    case index =>
      refine .inl ?_
      show grown.i + 1 ≤ grown.cycleCount
      omega

end Expand

/-! ### The start of a call and its other variables -/

theorem Ordered.relabel (h : Ordered next src c) (pc : Pc n) (visitHouse : V → Bool) (countEnd : ℕ)
    (leastFlag : Bool) (least most sum : ℕ) :
    Ordered next src
      { c with
        pc := pc, visitHouse := visitHouse, countEnd := countEnd, leastFlag := leastFlag
        least := least, most := most, sum := sum } :=
  ⟨h.array_eq, h.flag_iff, h.level_eq, h.entered, h.length_eq, h.index⟩

theorem ordered_initialCall {layout : Layout} {start : Fin layout.houseNum} :
    Ordered (fun v => (layout.vertice v).adjacency) (layout.house start) (initialCall layout start) where
  array_eq := by simp [initialCall, List.eraseDups_cons]
  flag_iff v := by
    by_cases hv : v = layout.house start
    · simp [initialCall, hv]
    · simp [initialCall, hv]
  level_eq := rfl
  entered d hd := absurd hd (Nat.not_lt_zero d)
  length_eq := rfl
  index := .inl le_rfl

end Multicore.Houses
