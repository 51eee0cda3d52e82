import Mathlib.Data.Fin.VecNotation
import Multicore.Reference.Meetings

/-!
# The depths of first meetings

Every thread stops: it reaches the houses of all other threads, whose marks are there from the start.
When all have stopped, the depths `D1` and `D2` at which two threads met first give the distance of
their houses up to one: it is `D1 + D2` or `D1 + D2 - 1`.
-/

namespace Multicore.Reference

variable {input : Input} {a b : Fin input.numHouse}
  {s : State input.numHouse (Fin input.numVertices)} {trace : List (Fin input.numHouse)}

/-! ### The depths and the distance -/

theorem house_mem_marks (h : Inv input s) (a : Fin input.numHouse) : input.house a ∈ marks s a := by
  obtain ⟨m, -, hsearch⟩ := (h.threads a).searching
  exact hsearch.explored.src_mem

/-- A thread that has not met another is not as deep as the other's house. -/
theorem currDepth_lt_of_not_met (h : Inv input s) (hne : a ≠ b) (hnot : (info s a b).vid = none) :
    (s.thread a).currDepth < input.houseDist a b := by
  by_contra hge
  obtain ⟨m, -, hsearch⟩ := (h.threads a).searching
  have hmem := hsearch.explored.complete (input.house b) (not_lt.1 hge)
  obtain ⟨hmet, -⟩ | ⟨hmet, hzero⟩ := h.first a b hne _ hmem (house_mem_marks h b)
  · exact hmet hnot
  · obtain ⟨w, hw⟩ := Option.ne_none_iff_exists'.1 hmet
    have hpos := (h.record b a w hw).2.2.2
    rw [SimpleGraph.dist_self] at hzero
    omega

theorem exists_not_met (h : Inv input s) (hnot : (s.thread a).visitedFlag ≠ input.fullFlag) :
    ∃ b, a ≠ b ∧ (info s a b).vid = none := by
  obtain ⟨m, -, hsearch⟩ := (h.threads a).searching
  by_contra hall
  refine hnot (BitVec.eq_of_getLsbD_eq fun k _ => Bool.eq_iff_iff.2 ?_)
  rw [getLsbD_fullFlag]
  refine ⟨h.visited_lt a k, fun hk => (hsearch.visited_iff k).2 ?_⟩
  by_cases hka : k = a.val
  · exact .inl hka
  · refine .inr fun hnone => hall ⟨⟨k, hk⟩, fun heq => hka ?_, hnone⟩
    rw [heq]

theorem met_of_full (h : Inv input s) (hfull : (s.thread a).visitedFlag = input.fullFlag)
    (hne : a ≠ b) : (info s a b).vid ≠ none := by
  obtain ⟨m, -, hsearch⟩ := (h.threads a).searching
  have hbit : (s.thread a).visitedFlag.getLsbD b = true := by
    rw [hfull, getLsbD_fullFlag]
    exact b.isLt
  exact ((hsearch.visited_iff b).1 hbit).resolve_left fun heq => hne (Fin.ext heq.symm)

theorem met_of_stopped (h : Inv input s) (hstop : (s.thread a).pc = .stopped) (hne : a ≠ b) :
    (info s a b).vid ≠ none ∧ (info s a b).depth ≤ (s.thread a).currDepth := by
  have ht := h.threads a
  rw [ThreadInv, hstop] at ht
  obtain ⟨hsearch, hfull, hbound⟩ := ht
  have hmet := met_of_full h hfull hne
  obtain ⟨w, hw⟩ := Option.ne_none_iff_exists'.1 hmet
  obtain ⟨hmem, -, hdepth, -⟩ := h.record a b w hw
  exact ⟨hmet, hdepth ▸ hbound w hmem⟩

/-- A vertex on a shortest path that both threads marked before their first meetings would have been
one. -/
theorem depths_le (h : Inv input s) (ha : (s.thread a).pc = .stopped)
    (hb : (s.thread b).pc = .stopped) (hne : a ≠ b) :
    (info s a b).depth + (info s b a).depth ≤ input.houseDist a b + 1 := by
  obtain ⟨hab, habound⟩ := met_of_stopped h ha hne
  obtain ⟨hba, hbbound⟩ := met_of_stopped h hb hne.symm
  obtain ⟨x, hx⟩ := Option.ne_none_iff_exists'.1 hab
  obtain ⟨y, hy⟩ := Option.ne_none_iff_exists'.1 hba
  have hapos := (h.record a b x hx).2.2.2
  have hbpos := (h.record b a y hy).2.2.2
  obtain ⟨m, -, hsa⟩ := (h.threads a).searching
  obtain ⟨k, -, hsb⟩ := (h.threads b).searching
  by_contra hlt
  obtain ⟨w, hwa, hwb⟩ := exists_between (k := min ((info s a b).depth - 1) (input.houseDist a b))
    input.connected (min_le_right _ _)
  change input.roads.dist (input.house a) w = _ at hwa
  change input.roads.dist w (input.house b) = input.houseDist a b - _ at hwb
  rw [SimpleGraph.dist_comm] at hwb
  have hmema := hsa.explored.complete w (by omega)
  have hmemb := hsb.explored.complete w (by omega)
  obtain ⟨-, hle⟩ | ⟨-, hle⟩ := h.first a b hne w hmema hmemb
  · omega
  · omega

theorem houseDist_eq_or (h : Inv input s) (ha : (s.thread a).pc = .stopped)
    (hb : (s.thread b).pc = .stopped) (hne : a ≠ b) :
    input.houseDist a b = (info s a b).depth + (info s b a).depth ∨
      input.houseDist a b = (info s a b).depth + (info s b a).depth - 1 := by
  have hle := depths_le h ha hb hne
  have hge := h.near a b (met_of_stopped h ha hne).1 (met_of_stopped h hb hne.symm).1
  omega

/-! ### Every thread stops -/

theorem length_readGraph {V : Type*} [DecidableEq V] (edges : List (V × V)) (graph : V → List V) (v : V) :
    (readGraph edges graph v).length = (graph v).length + incidence edges v := by
  have hadd : ∀ (graph : V → List V) (x y : V),
      (addNeighbor graph x y v).length = (graph v).length + if x = v then 1 else 0 := by
    intro graph x y
    by_cases hx : x = v
    · subst hx
      rw [addNeighbor, Function.update_self, List.length_append, if_pos rfl]
      rfl
    · rw [addNeighbor, Function.update_of_ne (Ne.symm hx), if_neg hx, Nat.add_zero]
  induction edges generalizing graph with
  | nil => rfl
  | cons e edges ih =>
    change (readGraph edges (addNeighbor (addNeighbor graph e.1 e.2) e.2 e.1) v).length = _
    rw [ih, hadd, hadd, incidence, incidence, List.countP_cons, List.countP_cons]
    simp only [decide_eq_true_eq]
    omega

theorem length_graph_le (v : Fin input.numVertices) :
    (input.graph v).length ≤ maxEdgePerVertex := by
  rw [Input.graph, length_readGraph, List.length_nil, Nat.zero_add]
  exact input.degree_le v

/-- A bound for the steps left until the next entry is dequeued. -/
def Pc.rank {V : Type*} : Pc V → ℕ
  | .dequeue => 0
  | .test rest => 2 * rest.length + 1
  | .mark _ rest => 2 * rest.length + 2
  | .stopped => 0

/-- A bound for the steps a thread has left. A queue holds every vertex once and a fence for every
depth. -/
def remaining (input : Input) (t : Thread (Fin input.numVertices)) : ℕ :=
  if t.pc = .stopped then 0
  else (2 * input.numVertices - t.front) * (2 * maxEdgePerVertex + 2) + t.pc.rank

/-- A bound for the steps all threads have left. -/
def work (input : Input) (s : State input.numHouse (Fin input.numVertices)) : ℕ :=
  ∑ a, remaining input (s.thread a)

theorem thread_effect_of_ne (hne : b ≠ a) : (effect input s a).thread b = s.thread b := by
  rw [effect]
  dsimp only
  split
  · split <;> exact State.setThread_thread_of_ne hne
  · exact State.setThread_thread_of_ne hne
  · split <;> exact State.setThread_thread_of_ne hne
  · exact State.setThread_thread_of_ne hne
  · rfl

/-- A thread stops when it completes a depth; one that completes a depth and does not stop has a thread
left to meet. -/
theorem depth_effect_self (h : Inv input s) (hen : Enabled input s a) :
    (((effect input s a).thread a).pc = .stopped ∧
        ((effect input s a).thread a).currDepth = (s.thread a).currDepth + 1) ∨
      (((effect input s a).thread a).pc ≠ .stopped ∧
        (((effect input s a).thread a).visitedFlag ≠ input.fullFlag ∨
          ((effect input s a).thread a).currDepth = (s.thread a).currDepth)) := by
  obtain ⟨m, -, hsearch⟩ := (h.threads a).searching
  rw [effect]
  cases hpc : (s.thread a).pc <;> dsimp only
  case dequeue =>
    rw [List.getElem?_eq_getElem hsearch.front_lt]
    split
    · rename_i hnone
      cases hnone
    · rw [State.setThread_thread_self, Thread.passFence]
      by_cases hfull : (s.thread a).visitedFlag = input.fullFlag
      · exact .inl ⟨if_pos hfull, rfl⟩
      · refine .inr ⟨?_, .inl hfull⟩
        rw [if_neg hfull]
        simp
    · rw [State.setThread_thread_self]
      exact .inr ⟨by simp, .inr rfl⟩
  case test rest =>
    cases rest with
    | nil =>
      rw [State.setThread_thread_self]
      exact .inr ⟨by simp, .inr rfl⟩
    | cons w rest =>
      dsimp only
      split
      · rw [State.setThread_thread_self]
        exact .inr ⟨by simp, .inr rfl⟩
      · rw [State.setThread_thread_self]
        exact .inr ⟨by simp, .inr rfl⟩
  case mark w rest =>
    rw [State.setThread_thread_self]
    exact .inr ⟨by simp, .inr (meet_currDepth _ _ _)⟩
  case stopped => exact absurd hpc hen

theorem houseDist_lt (a b : Fin input.numHouse) : input.houseDist a b < input.numVertices := by
  have hlt : input.houseDist a b < Fintype.card (Fin input.numVertices) := dist_lt_card input.connected
  rwa [Fintype.card_fin] at hlt

/-- The greatest depth a thread can get to: the distance of the house farthest from its own. Every
thread completes one depth. -/
noncomputable def reach (input : Input) (a : Fin input.numHouse) : ℕ :=
  max 1 (Finset.univ.sup (input.houseDist a))

theorem houseDist_le_reach (a b : Fin input.numHouse) : input.houseDist a b ≤ reach input a :=
  (Finset.le_sup (Finset.mem_univ b)).trans (le_max_right _ _)

theorem reach_le (a : Fin input.numHouse) : reach input a ≤ input.numVertices := by
  refine max_le ((Nat.zero_le _).trans_lt (input.house a).isLt) (Finset.sup_le fun b _ => ?_)
  exact (houseDist_lt a b).le

/-- A thread that has stopped has completed a depth and is not beyond its reach; one that has not is
still before it. -/
theorem depth_of_run (hrun : Run (Step input) (initial input) trace s) (a : Fin input.numHouse) :
    ((s.thread a).pc = .stopped → 0 < (s.thread a).currDepth ∧ (s.thread a).currDepth ≤ reach input a) ∧
      ((s.thread a).pc ≠ .stopped → (s.thread a).currDepth < reach input a) := by
  revert a
  apply hrun.invariant (P := fun _ s => ∀ a,
    ((s.thread a).pc = .stopped → 0 < (s.thread a).currDepth ∧ (s.thread a).currDepth ≤ reach input a) ∧
      ((s.thread a).pc ≠ .stopped → (s.thread a).currDepth < reach input a))
  · intro a
    refine ⟨fun hstop => absurd hstop (by simp [initial, initialThread]), fun _ => ?_⟩
    exact Nat.zero_lt_one.trans_le (le_max_left _ _)
  · intro trace s x s' hrun hold hstep a
    have hinv := inv_of_run (.cons hrun hstep)
    obtain ⟨hen, rfl⟩ := hstep
    by_cases ha : a = x
    · subst ha
      have hlt := (hold a).2 hen
      obtain ⟨hstop, hdepth⟩ | ⟨hgoes, hdepth⟩ := depth_effect_self (inv_of_run hrun) hen
      · refine ⟨fun _ => ?_, fun hgoes => absurd hstop hgoes⟩
        omega
      · refine ⟨fun hstop => absurd hstop hgoes, fun _ => ?_⟩
        obtain hnot | hsame := hdepth
        · obtain ⟨b, hne, hmet⟩ := exists_not_met hinv hnot
          exact (currDepth_lt_of_not_met hinv hne hmet).trans_le (houseDist_le_reach a b)
        · rw [hsame]
          exact hlt
    · rw [thread_effect_of_ne ha]
      exact hold a

theorem front_lt_of_run (hrun : Run (Step input) (initial input) trace s) (a : Fin input.numHouse)
    (hpc : (s.thread a).pc ≠ .stopped) : (s.thread a).front < 2 * input.numVertices := by
  obtain ⟨m, -, hsearch⟩ := ((inv_of_run hrun).threads a).searching
  have hdepth := ((depth_of_run hrun a).2 hpc).trans_le (reach_le a)
  have hvertices : ((s.thread a).queue.filterMap Entry.vertex?).length ≤ input.numVertices := by
    have hcard := hsearch.nodup.length_le_card
    rwa [Fintype.card_fin] at hcard
  have hlen := length_eq_countP_add (s.thread a).queue
  have hcount := hsearch.countP_eq
  have hfront := hsearch.front_lt
  omega

theorem remaining_lt_of_rank_lt {t t' : Thread (Fin input.numVertices)} (hpc : t.pc ≠ .stopped)
    (hfront : t'.front = t.front) (hrank : t'.pc.rank < t.pc.rank) :
    remaining input t' < remaining input t := by
  rw [remaining, remaining, if_neg hpc, hfront]
  split
  · omega
  · omega

theorem remaining_lt_of_dequeued {t t' : Thread (Fin input.numVertices)} (hpc : t.pc ≠ .stopped)
    (hlt : t.front < 2 * input.numVertices) (hfront : t'.front = t.front + 1)
    (hrank : t'.pc.rank ≤ 2 * maxEdgePerVertex + 1) : remaining input t' < remaining input t := by
  have hsplit : 2 * input.numVertices - t.front = 2 * input.numVertices - (t.front + 1) + 1 := by omega
  rw [remaining, remaining, if_neg hpc, hfront, hsplit,
    Nat.succ_mul (2 * input.numVertices - (t.front + 1))]
  split
  · omega
  · omega

theorem remaining_effect_lt (h : Inv input s) (hen : Enabled input s a)
    (hlt : (s.thread a).front < 2 * input.numVertices) :
    remaining input ((effect input s a).thread a) < remaining input (s.thread a) := by
  have hsearch := (h.threads a).searching
  rw [effect]
  cases hpc : (s.thread a).pc <;> dsimp only
  case dequeue =>
    obtain ⟨m, -, hsearch⟩ := hsearch
    have hget := List.getElem?_eq_getElem hsearch.front_lt
    rw [hget]
    split
    · rename_i hnone
      cases hnone
    · rw [State.setThread_thread_self]
      refine remaining_lt_of_dequeued hen hlt rfl ?_
      show (if _ then Pc.stopped else Pc.dequeue : Pc (Fin input.numVertices)).rank ≤ _
      split
      · exact Nat.zero_le _
      · exact Nat.zero_le _
    · rename_i v _
      rw [State.setThread_thread_self]
      refine remaining_lt_of_dequeued hen hlt rfl ?_
      have hlen := length_graph_le v
      show 2 * (input.graph v).length + 1 ≤ _
      omega
  case test rest =>
    cases rest with
    | nil =>
      rw [State.setThread_thread_self]
      exact remaining_lt_of_rank_lt hen rfl (by rw [hpc]; exact Nat.zero_lt_one)
    | cons w rest =>
      dsimp only
      split
      · rw [State.setThread_thread_self]
        refine remaining_lt_of_rank_lt hen rfl ?_
        rw [hpc]
        show 2 * rest.length + 1 < 2 * (rest.length + 1) + 1
        omega
      · rw [State.setThread_thread_self]
        refine remaining_lt_of_rank_lt hen rfl ?_
        rw [hpc]
        show 2 * rest.length + 2 < 2 * (rest.length + 1) + 1
        omega
  case mark w rest =>
    rw [State.setThread_thread_self]
    refine remaining_lt_of_rank_lt hen (meet_front _ _ _) ?_
    rw [hpc]
    exact Nat.lt_succ_self _
  case stopped => exact absurd hpc hen

theorem length_le_work (hrun : Run (Step input) (initial input) trace s) :
    trace.length ≤ work input (initial input) := by
  apply hrun.length_le_sum fun s a => remaining input (s.thread a)
  · rintro trace s a s' hrun ⟨hen, rfl⟩
    exact remaining_effect_lt (inv_of_run hrun) hen (front_lt_of_run hrun a hen)
  · rintro s a s' b ⟨-, rfl⟩ hne
    rw [thread_effect_of_ne hne]

/-- Every interleaving ends, and when all threads have stopped every two of them have met in both
directions, at depths that give the distance of their houses up to one. -/
theorem meeting_depths (hrun : Run (Step input) (initial input) trace s) :
    trace.length ≤ work input (initial input) ∧
      (¬ AllStopped input s → ∃ a s', Step input s a s') ∧
      (AllStopped input s → ∀ a b, a ≠ b →
        (info s a b).vid ≠ none ∧ (info s b a).vid ≠ none ∧
          (input.houseDist a b = (info s a b).depth + (info s b a).depth ∨
            input.houseDist a b = (info s a b).depth + (info s b a).depth - 1)) := by
  have hinv := inv_of_run hrun
  refine ⟨length_le_work hrun, fun hnot => ?_, fun hall a b hne => ?_⟩
  · rw [AllStopped, not_forall] at hnot
    obtain ⟨a, ha⟩ := hnot
    exact ⟨a, _, ha, rfl⟩
  · exact ⟨(met_of_stopped hinv (hall a) hne).1, (met_of_stopped hinv (hall b) hne.symm).1,
      houseDist_eq_or hinv (hall a) (hall b) hne⟩

theorem two_le_maxNumHouse : 2 ≤ maxNumHouse := by decide

/-- Two neighbouring houses with two more common neighbours. -/
def neighbors : Input where
  numVertices := 4
  numHouse := 2
  house := ![0, 1]
  edges := [(0, 2), (0, 3), (1, 2), (1, 3), (0, 1)]
  numHouse_le := two_le_maxNumHouse
  house_injective := by decide
  degree_le := by decide
  connected := connected_of_descent 0 Fin.val (by decide)

/-- The first thread marks vertex `2`, the second marks `2` and `3`, and the first goes on to mark `3`
and stop before the second does. -/
def crossing : List (Fin neighbors.numHouse) :=
  ([0, 0, 0, 1, 1, 1, 1, 1, 0, 0, 0, 0, 0, 0, 1, 1, 1, 1] : List (Fin 2))

theorem run_crossing :
    Run (Step neighbors) (initial neighbors) crossing.reverse
      (execute (effect neighbors) (initial neighbors) crossing) :=
  run_execute (by decide +kernel)

theorem meeting_depths_crossing :
    AllStopped neighbors (execute (effect neighbors) (initial neighbors) crossing) ∧
      dist (execute (effect neighbors) (initial neighbors) crossing) ((0 : Fin 2), (1 : Fin 2)) = 2 ∧
      (neighbors.houseDist (0 : Fin 2) (1 : Fin 2) = 2 ∨
        neighbors.houseDist (0 : Fin 2) (1 : Fin 2) = 2 - 1) := by
  have hall : AllStopped neighbors (execute (effect neighbors) (initial neighbors) crossing) := by
    decide +kernel
  have hdist : dist (execute (effect neighbors) (initial neighbors) crossing)
      ((0 : Fin 2), (1 : Fin 2)) = 2 := by
    decide +kernel
  have hor := ((meeting_depths run_crossing).2.2 hall (0 : Fin 2) (1 : Fin 2) Fin.zero_ne_one).2.2
  rw [dist] at hdist
  rw [hdist] at hor
  exact ⟨hall, hdist, hor⟩

end Multicore.Reference
