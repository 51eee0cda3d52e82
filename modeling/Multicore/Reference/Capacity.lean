import Mathlib.Data.Set.Card
import Multicore.Reference.Depths

/-!
# How long a queue gets

A queue holds every vertex its thread has marked and one fence for every depth. The array behind it has
room for as many entries as a graph may have vertices, which leaves no room for the fences: a thread
that runs ahead of all others goes on until it has reached the farthest house by itself.
-/

namespace Multicore.Reference

variable {input : Input} {a b : Fin input.numHouse}
  {s : State input.numHouse (Fin input.numVertices)} {trace : List (Fin input.numHouse)}

/-- No thread writes behind the last of the `maxVertices` entries of its queue. -/
def QueuesFit (input : Input) : Prop :=
  ∀ trace s, Run (Step input) (initial input) trace s → ∀ a, (s.thread a).queue.length ≤ maxVertices

/-- The vertices up to a distance from the house of a thread. -/
noncomputable def within (input : Input) (a : Fin input.numHouse) (d : ℕ) :
    Finset (Fin input.numVertices) :=
  {v | input.roads.dist (input.house a) v ≤ d}

theorem mem_within {v : Fin input.numVertices} {d : ℕ} :
    v ∈ within input a d ↔ input.roads.dist (input.house a) v ≤ d := by
  simp [within]

theorem Searching.length_queue {marked : Set (Fin input.numVertices)} {m : ℕ}
    {t : Thread (Fin input.numVertices)} (h : Searching input a marked m t) :
    t.queue.length = marked.ncard + t.currDepth + 1 := by
  have hmarked : ((t.queue.filterMap Entry.vertex?).toFinset : Set (Fin input.numVertices)) = marked := by
    ext v
    rw [Finset.mem_coe, List.mem_toFinset, mem_filterMap_vertex?, h.mem_queue]
  rw [length_eq_countP_add, h.countP_eq, ← hmarked, Set.ncard_coe_finset,
    List.toFinset_card_of_nodup h.nodup]
  omega

theorem marks_subset_within (hrun : Run (Step input) (initial input) trace s)
    (a : Fin input.numHouse) : marks s a ⊆ within input a (reach input a) := by
  intro v hv
  rw [Finset.mem_coe, mem_within]
  obtain ⟨hstopped, hgoes⟩ := depth_of_run hrun a
  by_cases hstop : (s.thread a).pc = .stopped
  · have ht := (inv_of_run hrun).threads a
    rw [ThreadInv, hstop] at ht
    exact (ht.2.2 v hv).trans (hstopped hstop).2
  · obtain ⟨m, -, hsearch⟩ := ((inv_of_run hrun).threads a).searching
    exact (hsearch.explored.bounded v hv).trans (hgoes hstop)

/-- No queue outgrows the vertices and the fences within the reach of its thread. -/
theorem length_queue_le (hrun : Run (Step input) (initial input) trace s) (a : Fin input.numHouse) :
    (s.thread a).queue.length ≤ (within input a (reach input a)).card + reach input a + 1 := by
  obtain ⟨m, -, hsearch⟩ := ((inv_of_run hrun).threads a).searching
  have hcard := Set.ncard_le_ncard (marks_subset_within hrun a)
  rw [Set.ncard_coe_finset] at hcard
  have hdepth : (s.thread a).currDepth ≤ reach input a := by
    obtain ⟨hstopped, hgoes⟩ := depth_of_run hrun a
    by_cases hstop : (s.thread a).pc = .stopped
    · exact (hstopped hstop).2
    · exact (hgoes hstop).le
  rw [hsearch.length_queue]
  omega

/-! ### A thread that runs ahead -/

/-- The steps of one thread alone. -/
abbrev StepAlone (input : Input) (a : Fin input.numHouse) := Restrict (Step input) fun _ x => x = a

theorem thread_of_alone (hrun : Run (StepAlone input a) (initial input) trace s) (hne : b ≠ a) :
    s.thread b = initialThread input b := by
  apply hrun.invariant (P := fun _ s => s.thread b = initialThread input b)
  · rfl
  · rintro trace s x s' hrun hold ⟨⟨hen, rfl⟩, rfl⟩
    rw [thread_effect_of_ne hne, hold]

/-- A thread that has not moved has marked its house only. -/
theorem marks_of_alone (hrun : Run (StepAlone input a) (initial input) trace s) (hne : b ≠ a) :
    marks s b = {input.house b} := by
  obtain ⟨m, -, hsearch⟩ := ((inv_of_run hrun.of_restrict).threads b).searching
  rw [thread_of_alone hrun hne] at hsearch
  ext v
  rw [← hsearch.mem_queue v]
  simp [initialThread]

theorem exists_stopped_alone (a : Fin input.numHouse) :
    ∃ trace s, Run (StepAlone input a) (initial input) trace s ∧ (s.thread a).pc = .stopped := by
  have hlower : ∀ trace s x s', Run (StepAlone input a) (initial input) trace s →
      StepAlone input a s x s' → remaining input (s'.thread a) < remaining input (s.thread a) := by
    rintro trace s x s' hrun ⟨⟨hen, rfl⟩, rfl⟩
    exact remaining_effect_lt (inv_of_run hrun.of_restrict) hen (front_lt_of_run hrun.of_restrict x hen)
  obtain ⟨trace, s, hrun, hfinal⟩ := Run.exists_final _ hlower
  refine ⟨trace, s, hrun, ?_⟩
  by_contra hgoes
  exact hfinal a _ ⟨⟨hgoes, rfl⟩, rfl⟩

/-- A thread that stops before any other has moved has met each at its house. -/
theorem reach_le_of_alone (hrun : Run (StepAlone input a) (initial input) trace s)
    (hstop : (s.thread a).pc = .stopped) : reach input a ≤ (s.thread a).currDepth := by
  have hinv := inv_of_run hrun.of_restrict
  have hpos := ((depth_of_run hrun.of_restrict a).1 hstop).1
  refine max_le hpos (Finset.sup_le fun b _ => ?_)
  by_cases hne : a = b
  · rw [← hne, Input.houseDist, SimpleGraph.dist_self]
    exact Nat.zero_le _
  · obtain ⟨hmet, hdepth⟩ := met_of_stopped hinv hstop hne
    obtain ⟨w, hw⟩ := Option.ne_none_iff_exists'.1 hmet
    obtain ⟨-, hmem, heq, -⟩ := hinv.record a b w hw
    rw [marks_of_alone hrun (Ne.symm hne)] at hmem
    rw [Set.mem_singleton_iff.1 hmem] at heq
    exact heq.ge.trans hdepth

/-- Run alone, a thread fills its queue as far as any run can. -/
theorem exists_length_queue_ge (a : Fin input.numHouse) :
    ∃ trace s, Run (Step input) (initial input) trace s ∧
      (within input a (reach input a)).card + reach input a + 1 ≤ (s.thread a).queue.length := by
  obtain ⟨trace, s, hrun, hstop⟩ := exists_stopped_alone a
  have hreach := reach_le_of_alone hrun hstop
  obtain ⟨m, -, hsearch⟩ := ((inv_of_run hrun.of_restrict).threads a).searching
  have hcard : (within input a (reach input a)).card ≤ (marks s a).ncard := by
    rw [← Set.ncard_coe_finset]
    refine Set.ncard_le_ncard fun v hv => hsearch.explored.complete v ?_
    exact (mem_within.1 hv).trans hreach
  refine ⟨trace, s, hrun.of_restrict, ?_⟩
  rw [hsearch.length_queue]
  omega

/-- The queues are large enough just if each has room for the vertices within the reach of its thread
and a fence for every depth up to there. -/
theorem queuesFit_iff (input : Input) :
    QueuesFit input ↔
      ∀ a, (within input a (reach input a)).card + reach input a + 1 ≤ maxVertices := by
  constructor
  · intro hfit a
    obtain ⟨trace, s, hrun, hlength⟩ := exists_length_queue_ge a
    exact hlength.trans (hfit trace s hrun a)
  · intro hroom trace s hrun a
    exact (length_queue_le hrun a).trans (hroom a)

/-! ### A long row -/

/-- The edges of a row of vertices. -/
def rowEdges (n : ℕ) : List (Fin (n + 1) × Fin (n + 1)) :=
  (List.finRange n).map fun i => (i.castSucc, i.succ)

theorem incidence_rowEdges_le (n : ℕ) (v : Fin (n + 1)) : incidence (rowEdges n) v ≤ 2 := by
  have hend : ∀ f : Fin n → Fin (n + 1), Function.Injective f →
      (List.finRange n).countP (fun i => f i = v) ≤ 1 := by
    intro f hf
    have hcount : ((List.finRange n).map f).count v ≤ 1 :=
      List.nodup_iff_count_le_one.1 ((List.nodup_finRange n).map hf) v
    rw [List.count_eq_countP, List.countP_map] at hcount
    exact hcount
  have hleft := hend Fin.castSucc (Fin.castSucc_injective n)
  have hright := hend Fin.succ (Fin.succ_injective n)
  rw [incidence, rowEdges, List.countP_map, List.countP_map]
  exact Nat.add_le_add hleft hright

theorem rowEdges_descent (n : ℕ) (v : Fin (n + 1)) (hv : v ≠ 0) :
    ∃ u, (edgeGraph (rowEdges n)).Adj v u ∧ u.val < v.val := by
  obtain ⟨i, rfl⟩ := Fin.exists_succ_eq.2 hv
  refine ⟨i.castSucc, edgeGraph_adj.2 ⟨i.castSucc_lt_succ.ne', .inr ?_⟩, i.castSucc_lt_succ⟩
  exact List.mem_map.2 ⟨i, List.mem_finRange i, rfl⟩

theorem dist_rowEdges (n : ℕ) (v : Fin (n + 1)) : (edgeGraph (rowEdges n)).dist 0 v = v.val := by
  have hstep : ∀ u v, (edgeGraph (rowEdges n)).Adj u v → v.val ≤ u.val + 1 := by
    intro u v hadj
    obtain ⟨-, hmem | hmem⟩ := edgeGraph_adj.1 hadj
    · obtain ⟨i, -, hi⟩ := List.mem_map.1 hmem
      cases hi
      exact le_rfl
    · obtain ⟨i, -, hi⟩ := List.mem_map.1 hmem
      cases hi
      exact (Nat.le_succ _).trans (Nat.le_succ _)
  have hconn := connected_of_descent 0 Fin.val (rowEdges_descent n)
  refine le_antisymm (dist_le_of_descent 0 Fin.val (rowEdges_descent n)) ?_
  calc v.val
    _ ≤ (0 : Fin (n + 1)).val + (edgeGraph (rowEdges n)).dist 0 v := le_add_dist hconn Fin.val hstep
    _ = (edgeGraph (rowEdges n)).dist 0 v := Nat.zero_add _

/-- A row of vertices with houses at both ends. -/
def row (n : ℕ) : Input where
  numVertices := n + 2
  numHouse := 2
  house := ![0, Fin.last (n + 1)]
  edges := rowEdges (n + 1)
  numHouse_le := two_le_maxNumHouse
  house_injective := by
    have hne : (0 : Fin (n + 2)) ≠ Fin.last (n + 1) := (Fin.last_pos).ne
    intro i j
    match i, j with
    | 0, 0 => simp
    | 0, 1 => exact fun heq => absurd heq hne
    | 1, 0 => exact fun heq => absurd heq hne.symm
    | 1, 1 => simp
  degree_le v := (incidence_rowEdges_le (n + 1) v).trans (by decide)
  connected := connected_of_descent 0 Fin.val (rowEdges_descent (n + 1))

theorem row_houseDist (n : ℕ) : (row n).houseDist (0 : Fin 2) (1 : Fin 2) = n + 1 :=
  dist_rowEdges (n + 1) (Fin.last (n + 1))

/-- The first thread, run alone, enqueues all vertices and as many fences. -/
theorem row_length_queue (n : ℕ) :
    ∃ trace s, Run (Step (row n)) (initial (row n)) trace s ∧
      2 * (n + 2) ≤ (s.thread (0 : Fin 2)).queue.length := by
  have hreach : n + 1 ≤ reach (row n) (0 : Fin 2) := (row_houseDist n).ge.trans (houseDist_le_reach _ _)
  have hall : within (row n) (0 : Fin 2) (reach (row n) (0 : Fin 2)) = Finset.univ := by
    refine Finset.eq_univ_iff_forall.2 fun v => mem_within.2 ?_
    exact (dist_rowEdges (n + 1) v).le.trans ((Nat.lt_succ_iff.1 v.isLt).trans hreach)
  obtain ⟨trace, s, hrun, hlength⟩ := @exists_length_queue_ge (row n) (0 : Fin 2)
  have hcard : Fintype.card (Fin (row n).numVertices) = n + 2 := Fintype.card_fin _
  rw [hall, Finset.card_univ, hcard] at hlength
  exact ⟨trace, s, hrun, by omega⟩

/-- In the longest row the first thread writes behind the end of its queue. -/
theorem row_not_queuesFit :
    (row 9999998).numVertices = maxVertices ∧ ¬ QueuesFit (row 9999998) := by
  refine ⟨rfl, fun hfit => ?_⟩
  obtain ⟨trace, s, hrun, hlength⟩ := row_length_queue 9999998
  have hle : (s.thread (0 : Fin 2)).queue.length ≤ 10000000 := hfit trace s hrun (0 : Fin 2)
  omega

end Multicore.Reference
