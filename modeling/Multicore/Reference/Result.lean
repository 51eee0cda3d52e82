import Multicore.Base.Extreme
import Multicore.Reference.Depths

/-!
# What `MakeResult` prints

The two loops of `MakeResult` look for the vertex at which one thread of a pair met the other in the
queue of the other, to tell whether the distance is `D1 + D2` or `D1 + D2 - 1`. They get it right
exactly when one of the two vertices of a pair lies on a shortest path between the houses, and both do
where the distance is `D1 + D2`. Nothing in the search makes the threads meet on such vertices, and
where they do not the printed numbers can be wrong.
-/

namespace Multicore.Reference

variable {input : Input} {a b : Fin input.numHouse} {v w : Fin input.numVertices}
  {s : State input.numHouse (Fin input.numVertices)} {trace : List (Fin input.numHouse)}

/-! ### Looking a vertex up at a depth -/

theorem inDepth_iff {V : Type*} [DecidableEq V] {t : Thread V} {k : ℕ} {v : V} :
    inDepth t k (some v) = true ↔
      ∃ j, t.depthFence[k]?.getD t.queue.length ≤ j ∧
        j < t.depthFence[k + 1]?.getD t.queue.length ∧ t.queue[j]? = some (.vertex v) := by
  rw [inDepth, List.any_eq_true]
  simp only [Option.map_some, decide_eq_true_eq, Option.some.injEq]
  constructor
  · rintro ⟨e, he, rfl⟩
    exact mem_drop_take_iff.1 he
  · intro h
    exact ⟨_, mem_drop_take_iff.2 h, rfl⟩

/-- The vertices behind the fence of a depth are those at least that far away. -/
theorem Searching.fence_le_iff {marked : Set (Fin input.numVertices)} {m k p j : ℕ}
    {t : Thread (Fin input.numVertices)} (h : Searching input a marked m t)
    (hfence : t.depthFence[k]? = some p) (hj : t.queue[j]? = some (.vertex v)) :
    p ≤ j ↔ k ≤ input.roads.dist (input.house a) v := by
  rw [h.dist_eq j v hj]
  cases k with
  | zero =>
    have hzero : p = 0 := Option.some.inj (hfence.symm.trans h.fence_zero)
    omega
  | succ k =>
    obtain ⟨⟨d, hd⟩, hdepth⟩ := h.fence_at k p hfence
    constructor
    · intro hle
      have hne : p ≠ j := by
        rintro rfl
        rw [hj] at hd
        cases hd
      have hlt := depthAt_lt_of_fence hd (lt_of_le_of_ne hle hne)
      omega
    · intro hle
      by_contra hlt
      have hmono : depthAt t.queue j ≤ depthAt t.queue p := depthAt_mono (not_le.1 hlt).le
      omega

/-- Between the recorded fences lie the vertices at that distance. -/
theorem Searching.inDepth_iff {marked : Set (Fin input.numVertices)} {m k : ℕ}
    {t : Thread (Fin input.numVertices)} (h : Searching input a marked m t)
    (hbound : ∀ v ∈ marked, input.roads.dist (input.house a) v ≤ t.currDepth)
    (hk : k ≤ t.currDepth) :
    inDepth t k (some v) = true ↔ v ∈ marked ∧ input.roads.dist (input.house a) v = k := by
  have hlength := h.fence_length
  have hfirst := List.getElem?_eq_getElem (show k < t.depthFence.length by omega)
  -- without a fence behind them the entries reach to the end, and no vertex lies deeper
  have hend : ∀ j, t.queue[j]? = some (.vertex v) →
      (j < t.depthFence[k + 1]?.getD t.queue.length ↔ input.roads.dist (input.house a) v ≤ k) := by
    intro j hj
    cases hlast : t.depthFence[k + 1]? with
    | none =>
      rw [List.getElem?_eq_none_iff] at hlast
      have hlt : j < t.queue.length := lt_length_of_getElem? hj
      have hle := hbound v ((h.mem_queue v).1 (List.mem_of_getElem? hj))
      exact iff_of_true hlt (by omega)
    | some p =>
      have hiff := h.fence_le_iff hlast hj
      rw [Option.getD_some]
      omega
  rw [Reference.inDepth_iff, hfirst, Option.getD_some]
  constructor
  · rintro ⟨j, hge, hlt, hj⟩
    exact ⟨(h.mem_queue v).1 (List.mem_of_getElem? hj),
      le_antisymm ((hend j hj).1 hlt) ((h.fence_le_iff hfirst hj).1 hge)⟩
  · rintro ⟨hmem, hdist⟩
    obtain ⟨j, hj⟩ := h.exists_index hmem
    exact ⟨j, (h.fence_le_iff hfirst hj).2 hdist.ge, (hend j hj).2 hdist.le, hj⟩

/-! ### The tests of one pair -/

/-- The vertex `w` lies on a shortest path between two houses. -/
def Between (input : Input) (a b : Fin input.numHouse) (w : Fin input.numVertices) : Prop :=
  input.roads.dist (input.house a) w + input.roads.dist (input.house b) w = input.houseDist a b

/-- The vertices `w` and `x`, at which two threads met each other first, tell the distance of their
houses: one of them lies on a shortest path, and both do if that is as long as the depths together. -/
def Tells (input : Input) (a b : Fin input.numHouse) (w x : Fin input.numVertices) : Prop :=
  (Between input a b w ∨ Between input a b x) ∧
    (input.houseDist a b =
        input.roads.dist (input.house a) w + input.roads.dist (input.house b) x →
      Between input a b w ∧ Between input a b x)

theorem between_comm : Between input a b w ↔ Between input b a w := by
  rw [Between, Between, Nat.add_comm, houseDist_comm]

theorem Tells.symm (h : Tells input a b v w) : Tells input b a w v := by
  rw [Tells, between_comm (w := v), between_comm (w := w), houseDist_comm] at h
  refine ⟨h.1.symm, fun heq => (h.2 ?_).symm⟩
  rw [Nat.add_comm]
  exact heq

theorem inDepth_info_iff (h : Inv input s) (ha : (s.thread a).pc = .stopped)
    (hv : (info s b a).vid = some v) {k : ℕ} (hk : k ≤ (s.thread a).currDepth) :
    inDepth (s.thread a) k (info s b a).vid = true ↔ input.roads.dist (input.house a) v = k := by
  have ht := h.threads a
  rw [ThreadInv, ha] at ht
  rw [hv, ht.1.inDepth_iff ht.2.2 hk]
  exact and_iff_right (h.record b a v hv).2.1

/-- The tests of both loops are right about a pair just if its two vertices tell the distance. -/
theorem tests_iff (h : Inv input s) (ha : (s.thread a).pc = .stopped)
    (hb : (s.thread b).pc = .stopped) (hne : a ≠ b) (hw : (info s a b).vid = some w)
    (hv : (info s b a).vid = some v) :
    ((minBreaks s (a, b) = true ↔ input.houseDist a b = dist s (a, b) - 1) ∧
        (maxBreaks s (a, b) = true ↔ input.houseDist a b = dist s (a, b))) ↔
      Tells input a b w v := by
  obtain ⟨-, -, hdepthw, hposw⟩ := h.record a b w hw
  obtain ⟨-, -, hdepthv, hposv⟩ := h.record b a v hv
  have hor := houseDist_eq_or h ha hb hne
  have hbw := fun k (hk : k ≤ (info s b a).depth) =>
    inDepth_info_iff h hb hw (hk.trans (met_of_stopped h hb hne.symm).2)
  have hav := fun k (hk : k ≤ (info s a b).depth) =>
    inDepth_info_iff h ha hv (hk.trans (met_of_stopped h ha hne).2)
  have hlew := houseDist_le_add a b w
  have hlev := houseDist_le_add a b v
  simp only [minBreaks, maxBreaks, Bool.or_eq_true, Bool.and_eq_true, Bool.not_eq_true',
    ← Bool.not_eq_true, hbw _ le_rfl, hav _ le_rfl, hbw _ (Nat.sub_le _ 1), hav _ (Nat.sub_le _ 1)]
  rw [Tells, Between, Between, dist]
  dsimp only
  -- every depth is a distance by now, and the triangle inequality leaves two values for the sum
  omega

/-! ### Runs in which the meetings tell the distance -/

/-- A thread that is about to meet another, which has met it before, meets it on a vertex that
together with the vertex of the other meeting tells the distance. -/
def MeetsTelling (input : Input) (s : State input.numHouse (Fin input.numVertices))
    (a : Fin input.numHouse) : Prop :=
  ∀ w rest, (s.thread a).pc = .mark w rest → ∀ b, b ≠ a → w ∈ marks s b →
    (info s a b).vid = none → ∀ x, (info s b a).vid = some x → Tells input a b w x

theorem info_effect_of_not_mark (hpc : ∀ w rest, (s.thread a).pc ≠ .mark w rest)
    (x y : Fin input.numHouse) : info (effect input s a) x y = info s x y := by
  have hset : ∀ t, t.visitInfo = (s.thread a).visitInfo →
      info (s.setThread a t) x y = info s x y := fun t ht => info_setThread ht x y
  rw [effect]
  dsimp only
  split
  · split
    · exact hset _ rfl
    · exact hset _ rfl
    · exact hset _ rfl
  · exact hset _ rfl
  · split
    · exact hset _ rfl
    · exact hset _ rfl
  · exact absurd ‹_› (hpc _ _)
  · rfl

/-- Every two first meetings tell the distance. -/
def AllTelling (input : Input) (s : State input.numHouse (Fin input.numVertices)) : Prop :=
  ∀ a b, a ≠ b → ∀ w x, (info s a b).vid = some w → (info s b a).vid = some x → Tells input a b w x

theorem allTelling_markStep {marked : Set (Fin input.numVertices)} {m : ℕ}
    {rest : List (Fin input.numVertices)} (hold : AllTelling input s)
    (hsearch : Searching input a marked m (s.thread a)) (hpc : (s.thread a).pc = .mark w rest)
    (hcond : MeetsTelling input s a) : AllTelling input (markStep s a w rest) := by
  have hself : ∀ b, b ≠ a → ∀ u x, (info (markStep s a w rest) a b).vid = some u →
      (info s b a).vid = some x → Tells input a b u x := by
    intro b hne u x hu hx
    obtain ⟨-, hnone, hmem, heq⟩ | ⟨-, heq⟩ := info_markStep_self hsearch w rest b
    · rw [heq] at hu
      cases hu
      exact hcond w rest hpc b hne hmem hnone x hx
    · rw [heq] at hu
      exact hold a b hne.symm u x hu hx
  intro p q hne u x hu hx
  by_cases hp : p = a
  · subst hp
    rw [info_markStep_of_ne hne.symm] at hx
    exact hself q hne.symm u x hu hx
  · rw [info_markStep_of_ne hp] at hu
    by_cases hq : q = a
    · subst hq
      exact (hself p hp x u hx hu).symm
    · rw [info_markStep_of_ne hq] at hx
      exact hold p q hne u x hu hx

theorem allTelling_of_run
    (hrun : Run (Restrict (Step input) (MeetsTelling input)) (initial input) trace s) :
    AllTelling input s := by
  apply hrun.invariant (P := fun _ s => AllTelling input s)
  · intro a b _ w x hw
    cases hw
  · rintro trace s a s' hrun hold ⟨⟨hen, rfl⟩, hcond⟩
    by_cases hmark : ∃ w rest, (s.thread a).pc = .mark w rest
    · obtain ⟨w, rest, hpc⟩ := hmark
      obtain ⟨m, -, hsearch⟩ := ((inv_of_run hrun.of_restrict).threads a).searching
      have heffect : effect input s a = markStep s a w rest := by
        rw [effect, hpc]
        rfl
      rw [heffect]
      exact allTelling_markStep hold hsearch hpc hcond
    · have hinfo := info_effect_of_not_mark fun w rest hpc => hmark ⟨w, rest, hpc⟩
      intro p q hne u x hu hx
      rw [hinfo] at hu hx
      exact hold p q hne u x hu hx

/-! ### The printed numbers -/

theorem mem_pairs {n : ℕ} {p : Fin n × Fin n} : p ∈ pairs n ↔ p.1 < p.2 := by
  simp [pairs, Prod.ext_iff]

theorem pairDistances_eq (input : Input) :
    input.pairDistances =
      (fun p => input.houseDist p.1 p.2) '' {p | p ∈ pairs input.numHouse} := by
  ext d
  simp only [Input.pairDistances, Set.mem_ofPred_eq, Set.mem_image, mem_pairs, Prod.exists]
  simp only [eq_comm]

section Candidates

variable {n : ℕ} {V : Type*} (t : State n V)

theorem isLeast_minDist (hpair : ∃ p, p ∈ pairs n)
    (hlt : ∀ p ∈ pairs n, dist t p < 999999999) : IsLeast (dist t '' {p | p ∈ pairs n}) (minDist t) := by
  have hstep : (fun min p => if dist t p < min then dist t p else min) =
      fun least p => min least (dist t p) := by
    funext least p
    rw [min_comm, min_def_lt]
  have hleast : IsLeast (insert 999999999 (dist t '' {p | p ∈ pairs n})) (minDist t) := by
    rw [minDist, hstep]
    exact isLeast_foldl_min (dist t) (pairs n) 999999999
  obtain ⟨hmem, hle⟩ := hleast
  obtain ⟨p, hp⟩ := hpair
  have hmin : minDist t ≤ dist t p := hle (.inr ⟨p, hp, rfl⟩)
  have hbound := hlt p hp
  exact ⟨hmem.resolve_left (by omega), fun d hd => hle (.inr hd)⟩

theorem isGreatest_maxDist (hpair : ∃ p, p ∈ pairs n) :
    IsGreatest (dist t '' {p | p ∈ pairs n}) (maxDist t) := by
  have hstep : (fun max p => if max < dist t p then dist t p else max) =
      fun most p => max most (dist t p) := by
    funext most p
    rw [max_def_lt]
  have hgreatest : IsGreatest (insert 0 (dist t '' {p | p ∈ pairs n})) (maxDist t) := by
    rw [maxDist, hstep]
    exact isGreatest_foldl_max (dist t) (pairs n) 0
  obtain ⟨hmem, hle⟩ := hgreatest
  obtain ⟨p, hp⟩ := hpair
  have hmax : dist t p ≤ maxDist t := hle (.inr ⟨p, hp, rfl⟩)
  refine ⟨?_, fun d hd => hle (.inr hd)⟩
  obtain hzero | hmem := hmem
  · exact ⟨p, hp, by omega⟩
  · exact hmem

end Candidates

/-- Where the tests are right about every pair, the printed numbers are right. -/
theorem rightAnswer_of_tests (h : Inv input s) (hall : AllStopped input s)
    (hsize : input.numVertices ≤ maxVertices) (htwo : 2 ≤ input.numHouse)
    (htests : ∀ p ∈ pairs input.numHouse,
      (minBreaks s p = true ↔ input.houseDist p.1 p.2 = dist s p - 1) ∧
        (maxBreaks s p = true ↔ input.houseDist p.1 p.2 = dist s p)) : RightAnswer input s := by
  have hvalue : ∀ p ∈ pairs input.numHouse,
      input.houseDist p.1 p.2 = dist s p ∨ input.houseDist p.1 p.2 = dist s p - 1 := fun p hp =>
    houseDist_eq_or h (hall p.1) (hall p.2) (mem_pairs.1 hp).ne
  have hpair : ∃ p, p ∈ pairs input.numHouse :=
    ⟨(⟨0, by omega⟩, ⟨1, by omega⟩), mem_pairs.2 (Fin.mk_lt_mk.2 Nat.zero_lt_one)⟩
  have hlt : ∀ p ∈ pairs input.numHouse, dist s p < 999999999 := by
    intro p hp
    have hdist := houseDist_lt p.1 p.2
    have hmax : input.numVertices ≤ 10000000 := hsize
    have hor := hvalue p hp
    omega
  rw [RightAnswer, pairDistances_eq, resultMin, resultMax]
  refine ⟨isLeast_of_estimate (isLeast_minDist s hpair hlt) hvalue ?_,
    isGreatest_of_estimate (isGreatest_maxDist s hpair) hvalue ?_⟩
  · simp only [List.any_eq_true, List.mem_filter, decide_eq_true_eq, Set.mem_ofPred_eq, and_assoc]
    exact exists_congr fun p => and_congr_right fun hp => and_congr_right fun _ => (htests p hp).1
  · simp only [List.any_eq_true, List.mem_filter, decide_eq_true_eq, Set.mem_ofPred_eq, and_assoc]
    exact exists_congr fun p => and_congr_right fun hp => and_congr_right fun _ => (htests p hp).2

/-- When the threads have stopped in a run in which every two first meetings tell the distance, the
program prints the least and the greatest distance of two houses. -/
theorem makeResult_right (hsize : input.numVertices ≤ maxVertices) (htwo : 2 ≤ input.numHouse)
    (hrun : Run (Restrict (Step input) (MeetsTelling input)) (initial input) trace s)
    (hall : AllStopped input s) : RightAnswer input s := by
  have hinv := inv_of_run hrun.of_restrict
  have htelling := allTelling_of_run hrun
  refine rightAnswer_of_tests hinv hall hsize htwo fun p hp => ?_
  have hne : p.1 ≠ p.2 := (mem_pairs.1 hp).ne
  obtain ⟨w, hw⟩ := Option.ne_none_iff_exists'.1 (met_of_stopped hinv (hall p.1) hne).1
  obtain ⟨x, hx⟩ := Option.ne_none_iff_exists'.1 (met_of_stopped hinv (hall p.2) hne.symm).1
  exact (tests_iff hinv (hall p.1) (hall p.2) hne hw hx).2 (htelling p.1 p.2 hne w x hw hx)

/-- Three vertices in a row, with houses at both ends. -/
def threeInRow : Input where
  numVertices := 3
  numHouse := 2
  house := ![0, 2]
  edges := [(0, 1), (1, 2)]
  numHouse_le := two_le_maxNumHouse
  house_injective := by decide
  degree_le := by decide
  connected := connected_of_descent 0 Fin.val (by decide)

/-- Every vertex of the row lies between the houses. -/
theorem between_threeInRow (a b : Fin threeInRow.numHouse) (hne : a ≠ b)
    (w : Fin threeInRow.numVertices) : Between threeInRow a b w := by
  have hrow : ∀ u v : Fin 3, v.val ≤ u.val + threeInRow.roads.dist u v :=
    fun u v => le_add_dist threeInRow.connected Fin.val (by decide)
  have hleft : ∀ v : Fin 3, threeInRow.roads.dist (0 : Fin 3) v ≤ v.val :=
    fun v => dist_le_of_descent (G := edgeGraph [(0, 1), (1, 2)]) 0 Fin.val (by decide)
  have hright : ∀ v : Fin 3, threeInRow.roads.dist (2 : Fin 3) v ≤ 2 - v.val :=
    fun v => dist_le_of_descent (G := edgeGraph [(0, 1), (1, 2)]) 2 (2 - Fin.val ·) (by decide)
  have hends : ∀ v : Fin 3, Between threeInRow (0 : Fin 2) (1 : Fin 2) v := by
    intro v
    refine le_antisymm ?_ (houseDist_le_add _ _ _)
    calc threeInRow.roads.dist (0 : Fin 3) v + threeInRow.roads.dist (2 : Fin 3) v
      _ ≤ v.val + (2 - v.val) := Nat.add_le_add (hleft v) (hright v)
      _ = 2 := by omega
      _ ≤ 0 + threeInRow.roads.dist (0 : Fin 3) (2 : Fin 3) := hrow 0 2
      _ = threeInRow.houseDist (0 : Fin 2) (1 : Fin 2) := Nat.zero_add _
  have hcases : ∀ a b : Fin 2, a ≠ b → a = 0 ∧ b = 1 ∨ a = 1 ∧ b = 0 := by decide
  obtain ⟨rfl, rfl⟩ | ⟨rfl, rfl⟩ := hcases a b hne
  · exact hends w
  · exact between_comm.1 (hends w)

/-- The first thread marks the middle and waits for the second to stop. -/
def inTurn : List (Fin threeInRow.numHouse) :=
  ([0, 0, 0, 1, 1, 1, 1, 1, 0, 0, 0, 0, 0, 0, 0, 0] : List (Fin 2))

theorem run_inTurn :
    Run (Restrict (Step threeInRow) (MeetsTelling threeInRow)) (initial threeInRow) inTurn.reverse
      (execute (effect threeInRow) (initial threeInRow) inTurn) := by
  have hrun : Run (Step threeInRow) (initial threeInRow) inTurn.reverse
      (execute (effect threeInRow) (initial threeInRow) inTurn) := run_execute (by decide +kernel)
  refine hrun.mono fun s a s' hstep => ⟨hstep, ?_⟩
  intro w rest hpc b hne hmem hnone x hx
  have hbetween := between_threeInRow a b hne.symm
  exact ⟨.inl (hbetween w), fun _ => ⟨hbetween w, hbetween x⟩⟩

theorem makeResult_right_threeInRow :
    RightAnswer threeInRow (execute (effect threeInRow) (initial threeInRow) inTurn) :=
  makeResult_right (by decide) (by decide) run_inTurn (by decide +kernel)

/-- The houses are neighbours. The first thread meets the second at vertex `3` and the second meets
the first at vertex `2`, both at depth one, and each finds the vertex of the other at that depth. -/
theorem crossing_prints_two :
    Run (Step neighbors) (initial neighbors) crossing.reverse
        (execute (effect neighbors) (initial neighbors) crossing) ∧
      AllStopped neighbors (execute (effect neighbors) (initial neighbors) crossing) ∧
      resultMin (execute (effect neighbors) (initial neighbors) crossing) = 2 ∧
      resultMax (execute (effect neighbors) (initial neighbors) crossing) = 2 ∧
      neighbors.pairDistances = {1} ∧
      ¬ RightAnswer neighbors (execute (effect neighbors) (initial neighbors) crossing) := by
  have hmin : resultMin (execute (effect neighbors) (initial neighbors) crossing) = 2 := by
    decide +kernel
  have hdistances : neighbors.pairDistances = {1} := by
    have hroad : (edgeGraph [(0, 2), (0, 3), (1, 2), (1, 3), (0, 1)]).Adj (0 : Fin 4) 1 := by decide
    have hadj : neighbors.houseDist (0 : Fin 2) (1 : Fin 2) = 1 :=
      SimpleGraph.dist_eq_one_iff_adj.2 hroad
    have hcases : ∀ a b : Fin 2, a < b → a = 0 ∧ b = 1 := by decide
    ext d
    constructor
    · rintro ⟨i, j, hlt, rfl⟩
      obtain ⟨rfl, rfl⟩ := hcases i j hlt
      exact hadj
    · rintro rfl
      exact ⟨(0 : Fin 2), (1 : Fin 2), by decide, hadj.symm⟩
  refine ⟨run_crossing, by decide +kernel, hmin, by decide +kernel, hdistances, fun hright => ?_⟩
  have hmem := hright.1.1
  rw [hdistances, hmin] at hmem
  exact absurd hmem (by decide)

end Multicore.Reference
