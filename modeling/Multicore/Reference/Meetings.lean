import Multicore.Reference.Queue

/-!
# Where two threads meet

Two threads that have marked one vertex have met: whichever set its mark later found the other's. The
depth of a first meeting is no greater than the distance of any vertex that both had marked before, so
a vertex halfway on a shortest path bounds the sum of the two depths from above, and the vertex of the
earlier meeting bounds it from below.
-/

namespace Multicore.Reference

variable {input : Input} {a b : Fin input.numHouse} {v w : Fin input.numVertices}
  {s : State input.numHouse (Fin input.numVertices)} {t : Thread (Fin input.numVertices)}
  {rest : List (Fin input.numVertices)}

/-- The vertices that carry the mark of a thread. -/
def marks {n : ℕ} {V : Type*} (s : State n V) (a : Fin n) : Set V :=
  {v | (s.vertexFlag v).getLsbD a = true}

/-- The thread `a` has met the thread `b`, at a depth of at most `d`. -/
def MetBy {n : ℕ} {V : Type*} (s : State n V) (a b : Fin n) (d : ℕ) : Prop :=
  (info s a b).vid ≠ none ∧ (info s a b).depth ≤ d

structure Inv (input : Input) (s : State input.numHouse (Fin input.numVertices)) : Prop where
  threads : ∀ a, ThreadInv input a (marks s a) (s.thread a)
  flag_lt : ∀ v k, (s.vertexFlag v).getLsbD k = true → k < input.numHouse
  visited_lt : ∀ a k, (s.thread a).visitedFlag.getLsbD k = true → k < input.numHouse
  record : ∀ a b w, (info s a b).vid = some w →
    w ∈ marks s a ∧ w ∈ marks s b ∧ (info s a b).depth = input.roads.dist (input.house a) w ∧
      0 < (info s a b).depth
  first : ∀ a b, a ≠ b → ∀ v ∈ marks s a, v ∈ marks s b →
    MetBy s a b (input.roads.dist (input.house a) v) ∨ MetBy s b a (input.roads.dist (input.house b) v)
  near : ∀ a b, (info s a b).vid ≠ none → (info s b a).vid ≠ none →
    input.houseDist a b ≤ (info s a b).depth + (info s b a).depth

theorem houseDist_comm (a b : Fin input.numHouse) : input.houseDist a b = input.houseDist b a :=
  SimpleGraph.dist_comm

theorem houseDist_le_add (a b : Fin input.numHouse) (w : Fin input.numVertices) :
    input.houseDist a b ≤
      input.roads.dist (input.house a) w + input.roads.dist (input.house b) w := by
  rw [SimpleGraph.dist_comm (u := input.house b)]
  exact input.connected.dist_triangle

theorem ThreadInv.searching {marked : Set (Fin input.numVertices)} (h : ThreadInv input a marked t) :
    ∃ m, m ≤ t.front ∧ Searching input a marked m t := by
  rw [ThreadInv] at h
  split at h
  · exact ⟨_, le_rfl, h⟩
  · obtain ⟨v, m, hscan⟩ := h
    exact ⟨m, by rw [hscan.front_eq]; exact Nat.le_succ m, hscan.searching⟩
  · obtain ⟨-, v, m, hscan⟩ := h
    exact ⟨m, by rw [hscan.front_eq]; exact Nat.le_succ m, hscan.searching⟩
  · exact ⟨_, le_rfl, h.1⟩

/-! ### Steps that set no mark -/

theorem info_setThread (hinfo : t.visitInfo = (s.thread a).visitInfo) (x y : Fin input.numHouse) :
    info (s.setThread a t) x y = info s x y := by
  by_cases hx : x = a
  · rw [info, hx, State.setThread_thread_self, hinfo, info]
  · rw [info, State.setThread_thread_of_ne hx, info]

/-- A step that changes neither the marks nor the records of a thread. -/
theorem Inv.setThread (h : Inv input s) (hinfo : t.visitInfo = (s.thread a).visitInfo)
    (hvisited : t.visitedFlag = (s.thread a).visitedFlag)
    (ht : ThreadInv input a (marks s a) t) : Inv input (s.setThread a t) := by
  have hsame := info_setThread (s := s) hinfo
  refine ⟨fun x => ?_, h.flag_lt, fun x => ?_, ?_, ?_, ?_⟩
  · show ThreadInv input x (marks s x) _
    by_cases hx : x = a
    · rw [hx, State.setThread_thread_self]
      exact ht
    · rw [State.setThread_thread_of_ne hx]
      exact h.threads x
  · by_cases hx : x = a
    · rw [hx, State.setThread_thread_self, hvisited]
      exact h.visited_lt a
    · rw [State.setThread_thread_of_ne hx]
      exact h.visited_lt x
  · intro x y u
    rw [hsame]
    exact h.record x y u
  · intro x y hne u hx hy
    rw [MetBy, MetBy, hsame, hsame]
    exact h.first x y hne u hx hy
  · intro x y
    rw [hsame, hsame]
    exact h.near x y

/-! ### Setting a mark -/

/-- The state after the thread `a` has marked `w`. -/
def markStep (s : State input.numHouse (Fin input.numVertices)) (a : Fin input.numHouse)
    (w : Fin input.numVertices) (rest : List (Fin input.numVertices)) :
    State input.numHouse (Fin input.numVertices) :=
  { s with vertexFlag := Function.update s.vertexFlag w (s.vertexFlag w ||| flag a) }.setThread a
    { (s.thread a).meet w (s.vertexFlag w) with
      queue := ((s.thread a).meet w (s.vertexFlag w)).queue ++ [Entry.vertex w], pc := .test rest }

theorem marks_markStep_self : marks (markStep s a w rest) a = insert w (marks s a) := by
  have ha : a.val < 64 := a.isLt.trans_le input.numHouse_le
  ext v
  show (Function.update s.vertexFlag w (s.vertexFlag w ||| flag a) v).getLsbD a = true ↔ _
  by_cases hv : v = w
  · subst hv
    rw [Function.update_self, BitVec.getLsbD_or, getLsbD_flag ha]
    simp
  · rw [Function.update_of_ne hv, Set.mem_insert_iff]
    exact (or_iff_right hv).symm

theorem marks_markStep_of_ne (hne : b ≠ a) : marks (markStep s a w rest) b = marks s b := by
  have ha : a.val < 64 := a.isLt.trans_le input.numHouse_le
  ext v
  show (Function.update s.vertexFlag w (s.vertexFlag w ||| flag a) v).getLsbD b = true ↔ _
  by_cases hv : v = w
  · subst hv
    have hbit : a.val ≠ b.val := fun heq => hne (Fin.ext heq.symm)
    rw [Function.update_self, BitVec.getLsbD_or, getLsbD_flag ha, decide_eq_false hbit, Bool.or_false]
    rfl
  · rw [Function.update_of_ne hv]
    rfl

theorem info_markStep_of_ne {x : Fin input.numHouse} (hne : x ≠ a) (y : Fin input.numHouse) :
    info (markStep s a w rest) x y = info s x y := by
  rw [info, markStep, State.setThread_thread_of_ne hne, info]

/-- A record is written when the mark of the other thread is there and the two have not met. -/
theorem info_markStep_self {marked : Set (Fin input.numVertices)} {m : ℕ}
    (h : Searching input a marked m (s.thread a)) (w : Fin input.numVertices)
    (rest : List (Fin input.numVertices)) (b : Fin input.numHouse) :
    (b ≠ a ∧ (info s a b).vid = none ∧ w ∈ marks s b ∧
        info (markStep s a w rest) a b = ⟨some w, (s.thread a).currDepth + 1⟩) ∨
      ((b = a ∨ (info s a b).vid ≠ none ∨ w ∉ marks s b) ∧
        info (markStep s a w rest) a b = info s a b) := by
  have hmeet : info (markStep s a w rest) a b =
      ((s.thread a).meet w (s.vertexFlag w)).visitInfo b := by
    rw [info, markStep, State.setThread_thread_self]
  rw [meet_visitInfo] at hmeet
  have hvisited := h.visited_iff b
  by_cases hnew : (s.vertexFlag w).getLsbD b = true ∧ (s.thread a).visitedFlag.getLsbD b = false
  · rw [if_pos hnew] at hmeet
    rw [hnew.2, eq_comm, iff_false_left Bool.false_ne_true.symm, not_or, not_not] at hvisited
    exact .inl ⟨fun heq => hvisited.1 (by rw [heq]), hvisited.2, hnew.1, hmeet⟩
  · rw [if_neg hnew] at hmeet
    refine .inr ⟨?_, hmeet⟩
    by_cases hw : w ∈ marks s b
    · have htrue : (s.thread a).visitedFlag.getLsbD b = true := by
        rw [← Bool.not_eq_false]
        exact fun hfalse => hnew ⟨hw, hfalse⟩
      obtain heq | hmet := hvisited.1 htrue
      · exact .inl (Fin.ext heq)
      · exact .inr (.inl hmet)
    · exact .inr (.inr hw)

section MarkStep

variable {m : ℕ} (h : Inv input s) (hscan : Scanning input a (marks s a) v (w :: rest) m (s.thread a))
  (hw : w ∉ marks s a)

section Met

include hscan

theorem metBy_markStep {x y : Fin input.numHouse} {d : ℕ} (hmet : MetBy s x y d) :
    MetBy (markStep s a w rest) x y d := by
  by_cases hx : x = a
  · subst hx
    obtain ⟨-, hnone, -, -⟩ | ⟨-, heq⟩ := info_markStep_self hscan.searching w rest y
    · exact absurd hnone hmet.1
    · rw [MetBy, heq]
      exact hmet
  · rw [MetBy, info_markStep_of_ne hx]
    exact hmet

end Met

section Near

include h hscan

/-- The second of two meetings: the vertex of the first one is marked by both threads. -/
theorem near_of_met (hab : (info (markStep s a w rest) a b).vid ≠ none)
    (hba : (info s b a).vid ≠ none) :
    input.houseDist a b ≤ (info (markStep s a w rest) a b).depth + (info s b a).depth := by
  obtain ⟨-, -, -, heq⟩ | ⟨-, heq⟩ := info_markStep_self hscan.searching w rest b
  · obtain ⟨x, hx⟩ := Option.ne_none_iff_exists'.1 hba
    obtain ⟨-, hmem, hdepth, -⟩ := h.record b a x hx
    have hbound := hscan.searching.explored.bounded x hmem
    rw [heq, hdepth]
    exact (houseDist_le_add a b x).trans (Nat.add_le_add_right hbound _)
  · rw [heq] at hab ⊢
    exact h.near a b hab hba

theorem near_markStep (x y : Fin input.numHouse) (hxy : (info (markStep s a w rest) x y).vid ≠ none)
    (hyx : (info (markStep s a w rest) y x).vid ≠ none) :
    input.houseDist x y ≤
      (info (markStep s a w rest) x y).depth + (info (markStep s a w rest) y x).depth := by
  by_cases hx : x = a
  · subst hx
    by_cases hy : y = x
    · rw [hy, Input.houseDist, SimpleGraph.dist_self]
      exact Nat.zero_le _
    · rw [info_markStep_of_ne hy] at hyx ⊢
      exact near_of_met h hscan hxy hyx
  · rw [info_markStep_of_ne hx] at hxy ⊢
    by_cases hy : y = a
    · subst hy
      have hnear := near_of_met h hscan hyx hxy
      rw [houseDist_comm, Nat.add_comm]
      exact hnear
    · rw [info_markStep_of_ne hy] at hyx ⊢
      exact h.near x y hxy hyx

end Near

include h hscan hw

theorem threads_markStep (x : Fin input.numHouse) :
    ThreadInv input x (marks (markStep s a w rest) x) ((markStep s a w rest).thread x) := by
  by_cases hx : x = a
  · rw [hx, marks_markStep_self, markStep, State.setThread_thread_self]
    have hlt : m < (s.thread a).queue.length := lt_length_of_getElem? hscan.current
    refine ⟨v, m, hscan.searching.enqueue hlt.le hw (hscan.dist_new hw) _ _, ?_, ?_, ?_, ?_⟩
    · rw [meet_front]
      exact hscan.front_eq
    · rw [meet_queue]
      exact getElem?_append_of_some hscan.current
    · exact fun u hu => hscan.mem_graph u (List.mem_cons_of_mem w hu)
    · intro u hu
      obtain hmem | hmem := hscan.left u hu
      · exact .inl (Set.mem_insert_of_mem w hmem)
      · obtain rfl | hmem := List.mem_cons.1 hmem
        · exact .inl (Set.mem_insert u _)
        · exact .inr hmem
  · rw [marks_markStep_of_ne hx, markStep, State.setThread_thread_of_ne hx]
    exact h.threads x

theorem record_markStep (x y : Fin input.numHouse) (u : Fin input.numVertices)
    (hu : (info (markStep s a w rest) x y).vid = some u) :
    u ∈ marks (markStep s a w rest) x ∧ u ∈ marks (markStep s a w rest) y ∧
      (info (markStep s a w rest) x y).depth = input.roads.dist (input.house x) u ∧
      0 < (info (markStep s a w rest) x y).depth := by
  have hmono : ∀ z, marks s z ⊆ marks (markStep s a w rest) z := by
    intro z
    by_cases hz : z = a
    · rw [hz, marks_markStep_self]
      exact Set.subset_insert _ _
    · rw [marks_markStep_of_ne hz]
  have hold : (info s x y).vid = some u → u ∈ marks (markStep s a w rest) x ∧
      u ∈ marks (markStep s a w rest) y ∧
      (info s x y).depth = input.roads.dist (input.house x) u ∧ 0 < (info s x y).depth := fun hinfo =>
    ⟨hmono x (h.record x y u hinfo).1, hmono y (h.record x y u hinfo).2.1, (h.record x y u hinfo).2.2⟩
  by_cases hx : x = a
  · subst hx
    obtain ⟨-, -, hmem, heq⟩ | ⟨-, heq⟩ := info_markStep_self hscan.searching w rest y
    · rw [heq] at hu ⊢
      cases hu
      refine ⟨?_, hmono y hmem, (hscan.dist_new hw).symm, Nat.succ_pos _⟩
      rw [marks_markStep_self]
      exact Set.mem_insert _ _
    · rw [heq] at hu ⊢
      exact hold hu
  · rw [info_markStep_of_ne hx] at hu ⊢
    exact hold hu

/-- At a vertex with both marks, the thread that has just set its own has met the other. -/
theorem metBy_of_both (hb : b ≠ a) {u : Fin input.numVertices}
    (hua : u ∈ marks (markStep s a w rest) a) (hub : u ∈ marks s b) :
    MetBy (markStep s a w rest) a b (input.roads.dist (input.house a) u) ∨
      MetBy (markStep s a w rest) b a (input.roads.dist (input.house b) u) := by
  rw [marks_markStep_self] at hua
  obtain rfl | hua := hua
  · refine .inl ?_
    obtain ⟨-, -, -, heq⟩ | ⟨hold, heq⟩ := info_markStep_self hscan.searching u rest b
    · rw [MetBy, heq]
      exact ⟨Option.some_ne_none u, (hscan.dist_new hw).symm.le⟩
    · have hmet : (info s a b).vid ≠ none := by
        obtain heq | hmet | hnot := hold
        · exact absurd heq hb
        · exact hmet
        · exact absurd hub hnot
      -- the earlier record is of a marked vertex, and no marked vertex lies deeper
      obtain ⟨x, hx⟩ := Option.ne_none_iff_exists'.1 hmet
      obtain ⟨hmem, -, hdepth, -⟩ := h.record a b x hx
      rw [MetBy, heq, hdepth, hscan.dist_new hw]
      exact ⟨hmet, hscan.searching.explored.bounded x hmem⟩
  · obtain hmet | hmet := h.first a b hb.symm u hua hub
    · exact .inl (metBy_markStep hscan hmet)
    · exact .inr (metBy_markStep hscan hmet)

theorem first_markStep (x y : Fin input.numHouse) (hne : x ≠ y) (u : Fin input.numVertices)
    (hx : u ∈ marks (markStep s a w rest) x) (hy : u ∈ marks (markStep s a w rest) y) :
    MetBy (markStep s a w rest) x y (input.roads.dist (input.house x) u) ∨
      MetBy (markStep s a w rest) y x (input.roads.dist (input.house y) u) := by
  by_cases hxa : x = a
  · subst hxa
    rw [marks_markStep_of_ne hne.symm] at hy
    exact metBy_of_both h hscan hw hne.symm hx hy
  · rw [marks_markStep_of_ne hxa] at hx
    by_cases hya : y = a
    · subst hya
      exact (metBy_of_both h hscan hw hne hy hx).symm
    · rw [marks_markStep_of_ne hya] at hy
      obtain hmet | hmet := h.first x y hne u hx hy
      · exact .inl (metBy_markStep hscan hmet)
      · exact .inr (metBy_markStep hscan hmet)

theorem inv_markStep : Inv input (markStep s a w rest) where
  threads := threads_markStep h hscan hw
  flag_lt u k hbit := by
    change (Function.update s.vertexFlag w (s.vertexFlag w ||| flag a) u).getLsbD k = true at hbit
    by_cases hu : u = w
    · subst hu
      rw [Function.update_self, BitVec.getLsbD_or, getLsbD_flag (a.isLt.trans_le input.numHouse_le),
        Bool.or_eq_true, decide_eq_true_eq] at hbit
      obtain hold | rfl := hbit
      · exact h.flag_lt u k hold
      · exact a.isLt
    · rw [Function.update_of_ne hu] at hbit
      exact h.flag_lt u k hbit
  visited_lt x k hbit := by
    by_cases hx : x = a
    · rw [hx, markStep, State.setThread_thread_self] at hbit
      dsimp only at hbit
      rw [meet_visitedFlag, Bool.or_eq_true] at hbit
      obtain hold | hnew := hbit
      · exact h.visited_lt a k hold
      · exact h.flag_lt w k hnew
    · rw [markStep, State.setThread_thread_of_ne hx] at hbit
      exact h.visited_lt x k hbit
  record := record_markStep h hscan hw
  first := first_markStep h hscan hw
  near := near_markStep h hscan

end MarkStep

/-! ### Every step -/

theorem mem_marks_iff : w ∈ marks s a ↔ s.vertexFlag w &&& flag a ≠ 0#64 := by
  rw [ne_eq, and_flag_eq_zero_iff (a.isLt.trans_le input.numHouse_le), Bool.not_eq_false]
  rfl

theorem inv_step {s' : State input.numHouse (Fin input.numVertices)} (h : Inv input s)
    (hstep : Step input s a s') : Inv input s' := by
  obtain ⟨hen, rfl⟩ := hstep
  have ht := h.threads a
  rw [ThreadInv] at ht
  rw [effect]
  cases hpc : (s.thread a).pc <;> rw [hpc] at ht <;> dsimp only at ht ⊢
  case dequeue =>
    have hlt := ht.front_lt
    cases hentry : (s.thread a).queue[(s.thread a).front]? with
    | none =>
      rw [List.getElem?_eq_none_iff] at hentry
      omega
    | some e =>
      cases e with
      | fence d =>
        refine h.setThread rfl rfl ?_
        have hpass := ht.passFence hentry input.fullFlag
        rw [ThreadInv]
        dsimp only [Thread.passFence]
        by_cases hfull : (s.thread a).visitedFlag = input.fullFlag
        · rw [if_pos hfull]
          exact ⟨hpass.relabel .stopped, hfull, ht.explored.bounded⟩
        · rw [if_neg hfull]
          exact hpass.relabel .dequeue
      | vertex v => exact h.setThread rfl rfl ⟨v, _, ht.dequeueVertex hentry⟩
  case test rest =>
    obtain ⟨v, m, hscan⟩ := ht
    cases rest with
    | nil => exact h.setThread rfl rfl (hscan.finish.relabel .dequeue)
    | cons w rest =>
      dsimp only
      split
      · rename_i hmarked
        exact h.setThread rfl rfl ⟨v, m, (hscan.skip (mem_marks_iff.2 hmarked)).relabel _⟩
      · rename_i hnew
        exact h.setThread rfl rfl ⟨mt mem_marks_iff.1 hnew, v, m, hscan.relabel _⟩
  case mark w rest =>
    obtain ⟨hw, v, m, hscan⟩ := ht
    exact inv_markStep h hscan hw
  case stopped => exact absurd hpc hen

theorem marks_initial : marks (initial input) a = {input.house a} := by
  ext v
  show (input.initialFlag v).getLsbD a = true ↔ v = input.house a
  rw [getLsbD_initialFlag]
  constructor
  · rintro ⟨i, rfl, hi⟩
    rw [Fin.ext hi]
  · rintro rfl
    exact ⟨a, rfl, rfl⟩

theorem searching_initial :
    Searching input a (marks (initial input) a) 0 (initialThread input a) := by
  rw [marks_initial]
  constructor
  case mem_queue =>
    intro v
    simp [initialThread]
  case nodup => exact List.nodup_singleton _
  case dist_eq =>
    intro j v hj
    match j with
    | 0 =>
      cases hj
      exact SimpleGraph.dist_self
    | 1 => cases hj
    | j + 2 => cases hj
  case front_depth => rfl
  case countP_eq => rfl
  case explored =>
    have hstart : Explored input.roads (input.house a) {input.house a} ∅ 0 :=
      Explored.start input.connected
    refine ⟨hstart.complete, hstart.bounded, ?_⟩
    rintro u ⟨j, hj, -⟩
    exact absurd hj (Nat.not_lt_zero j)
  case fence_length => rfl
  case fence_zero => rfl
  case fence_at =>
    intro k p hp
    cases hp
  case visited_iff =>
    intro b
    show (flag a).getLsbD b = true ↔ b = a.val ∨ none ≠ none
    rw [getLsbD_flag (a.isLt.trans_le input.numHouse_le), decide_eq_true_eq]
    simp [eq_comm]

theorem inv_initial : Inv input (initial input) where
  threads _ := searching_initial
  flag_lt v k hbit := by
    obtain ⟨i, -, rfl⟩ := (getLsbD_initialFlag v k).1 hbit
    exact i.isLt
  visited_lt a k hbit := by
    change (flag a).getLsbD k = true at hbit
    rw [getLsbD_flag (a.isLt.trans_le input.numHouse_le), decide_eq_true_eq] at hbit
    exact hbit ▸ a.isLt
  record _ _ _ hw := absurd hw (Option.some_ne_none _).symm
  first a b hne v ha hb := by
    rw [marks_initial] at ha hb
    exact absurd (input.house_injective ((Set.mem_singleton_iff.1 ha).symm.trans hb)) hne
  near _ _ hmet := absurd rfl hmet

theorem inv_of_run {trace : List (Fin input.numHouse)}
    (hrun : Run (Step input) (initial input) trace s) : Inv input s :=
  hrun.invariant (P := fun _ s => Inv input s) inv_initial fun _ _ _ _ _ h hstep => inv_step h hstep

end Multicore.Reference
