import Multicore.Reference.Result

/-!
# The fences `MakeResult` reads

`MakeResult` finds the queue entries of one depth between two fences of `g_depth_fence_in_queue`. A
thread that stops has recorded a fence for every depth up to the one it stopped at, which is the depth
of its last first meeting. The loop over the minimal pairs reads the fence behind the depth of a
meeting, and for a thread that met nobody deeper there is none.
-/

namespace Multicore.Reference

/-! ### What the two loops read -/

section Reads

variable {n : ℕ} {V : Type*}

/-- The records as `g_visit_info` keeps them, with depths of 16 bits. The threads only write them, so
they may be cut when all have been joined. -/
def stored (s : State n V) : State n V :=
  { s with thread := fun i => { s.thread i with
      visitInfo := fun b => { (s.thread i).visitInfo b with
        depth := ((s.thread i).visitInfo b).depth % 65536 } } }

/-- The pairs a loop looks at: it leaves at the first one at which it breaks. -/
def examined {α : Type*} (breaks : α → Bool) : List α → List α
  | [] => []
  | p :: ps => p :: if breaks p then [] else examined breaks ps

variable [DecidableEq V] (s : State n V)

/-- The threads and indices at which the first loop reads `g_depth_fence_in_queue` for one pair. It
does not get to the first thread of the pair if it breaks at the second. -/
def minReads (p : Fin n × Fin n) : List (Fin n × ℤ) :=
  let depth1 := (info s p.1 p.2).depth
  let depth2 := (info s p.2 p.1).depth
  [(p.2, (depth2 : ℤ)), (p.2, (depth2 : ℤ) + 1)] ++
    if inDepth (s.thread p.2) depth2 (info s p.1 p.2).vid then
      [(p.1, (depth1 : ℤ)), (p.1, (depth1 : ℤ) + 1)]
    else []

/-- The same for the second loop, which continues with the next pair if it finds the vertex at the
second thread. -/
def maxReads (p : Fin n × Fin n) : List (Fin n × ℤ) :=
  let depth1 := (info s p.1 p.2).depth
  let depth2 := (info s p.2 p.1).depth
  [(p.2, (depth2 : ℤ) - 1), (p.2, (depth2 : ℤ))] ++
    if inDepth (s.thread p.2) (depth2 - 1) (info s p.1 p.2).vid then []
    else [(p.1, (depth1 : ℤ) - 1), (p.1, (depth1 : ℤ))]

def fenceReads : List (Fin n × ℤ) :=
  (examined (minBreaks s) ((pairs n).filter fun p => dist s p = minDist s)).flatMap (minReads s) ++
    (examined (maxBreaks s) ((pairs n).filter fun p => dist s p = maxDist s)).flatMap (maxReads s)

/-- The thread has recorded a fence at the index. A negative index is none: the vector takes it for a
huge one. -/
def InRange (read : Fin n × ℤ) : Prop :=
  0 ≤ read.2 ∧ read.2 < (s.thread read.1).depthFence.length

instance (read : Fin n × ℤ) : Decidable (InRange s read) := inferInstanceAs (Decidable (_ ∧ _))

/-- No read of `MakeResult` goes past the recorded fences. -/
def FencesInRange : Prop := ∀ read ∈ fenceReads s, InRange s read

instance : Decidable (FencesInRange s) := inferInstanceAs (Decidable (∀ _ ∈ _, _))

end Reads

/-! ### The pairs a loop gets to -/

section Order

variable {α : Type*} {breaks : α → Bool} {before : α → α → Prop}

theorem mem_examined_iff (hasymm : ∀ p q, before p q → ¬ before q p) {l : List α}
    (hsorted : l.Pairwise before) {p : α} :
    p ∈ examined breaks l ↔ p ∈ l ∧ ∀ q ∈ l, before q p → breaks q = false := by
  induction l with
  | nil => simp [examined]
  | cons x l ih =>
    obtain ⟨hfirst, hsorted⟩ := List.pairwise_cons.1 hsorted
    rw [examined, List.mem_cons, List.mem_cons, List.forall_mem_cons]
    by_cases hp : p = x
    · subst hp
      refine iff_of_true (.inl rfl) ⟨.inl rfl, fun hself => ?_, fun q hq hbefore => ?_⟩
      · exact absurd hself (hasymm _ _ hself)
      · exact absurd hbefore (hasymm _ _ (hfirst q hq))
    · cases hbreaks : breaks x with
      | true =>
        rw [if_pos rfl]
        refine iff_of_false (by simp [hp]) ?_
        rintro ⟨hmem, hnot, -⟩
        exact Bool.false_ne_true (hnot (hfirst p (hmem.resolve_left hp))).symm
      | false =>
        rw [if_neg Bool.false_ne_true, or_iff_right hp, or_iff_right hp, ih hsorted]
        simp

/-- One pair comes before another in the two nested loops. -/
def Before {n : ℕ} (p q : Fin n × Fin n) : Prop := p.1 < q.1 ∨ p.1 = q.1 ∧ p.2 < q.2

theorem Before.asymm {n : ℕ} (p q : Fin n × Fin n) (h : Before p q) : ¬ Before q p := by
  rw [Before] at h ⊢
  omega

theorem pairwise_pairs (n : ℕ) : (pairs n).Pairwise Before := by
  refine List.pairwise_flatMap.2 ⟨fun i _ => ?_, ?_⟩
  · refine List.pairwise_map.2 (((List.pairwise_lt_finRange n).filter _).imp ?_)
    intro j k hlt
    exact .inr ⟨rfl, hlt⟩
  · refine (List.pairwise_lt_finRange n).imp ?_
    intro i i' hlt p hp q hq
    obtain ⟨j, -, rfl⟩ := List.mem_map.1 hp
    obtain ⟨k, -, rfl⟩ := List.mem_map.1 hq
    exact .inl hlt

/-- A loop over the pairs with the same sum of depths gets to a pair if it goes on at those before. -/
theorem mem_examined_pairs {n : ℕ} {V : Type*} (s : State n V) {d : ℕ}
    {breaks : Fin n × Fin n → Bool} {p : Fin n × Fin n} :
    p ∈ examined breaks ((pairs n).filter fun p => dist s p = d) ↔
      p.1 < p.2 ∧ dist s p = d ∧
        ∀ q : Fin n × Fin n, q.1 < q.2 → dist s q = d → Before q p → breaks q = false := by
  rw [mem_examined_iff Before.asymm ((pairwise_pairs n).filter _)]
  simp only [List.mem_filter, mem_pairs, decide_eq_true_eq, and_imp, and_assoc]

end Order

variable {input : Input} {a b c : Fin input.numHouse} {v w : Fin input.numVertices} {d : ℕ}
  {s : State input.numHouse (Fin input.numVertices)} {trace : List (Fin input.numHouse)}

/-! ### How many fences a thread records -/

/-- A thread that has met all others met the last of them on the depth it then completes. -/
def LastMet (input : Input) (s : State input.numHouse (Fin input.numVertices))
    (a : Fin input.numHouse) : Prop :=
  (s.thread a).visitedFlag = input.fullFlag → ∃ c, a ≠ c ∧ (info s a c).depth =
    if (s.thread a).pc = .stopped then (s.thread a).currDepth else (s.thread a).currDepth + 1

/-- A step that writes no record and at most completes the last depth. -/
theorem LastMet.setThread {t : Thread (Fin input.numVertices)} (hold : LastMet input s a)
    (hen : Enabled input s a) (hinfo : t.visitInfo = (s.thread a).visitInfo)
    (hvisited : t.visitedFlag = (s.thread a).visitedFlag)
    (hdepth : t.visitedFlag = input.fullFlag →
      (if t.pc = .stopped then t.currDepth else t.currDepth + 1) = (s.thread a).currDepth + 1) :
    LastMet input (s.setThread a t) a := by
  rw [LastMet, State.setThread_thread_self]
  intro hfull
  obtain ⟨c, hne, hc⟩ := hold (hvisited.symm.trans hfull)
  rw [if_neg hen] at hc
  refine ⟨c, hne, ?_⟩
  rw [info_setThread hinfo, hc, hdepth hfull]

theorem lastMet_markStep {rest : List (Fin input.numVertices)} (h : Inv input s)
    (h' : Inv input (markStep s a w rest)) (hen : Enabled input s a) (hold : LastMet input s a) :
    LastMet input (markStep s a w rest) a := by
  obtain ⟨m, -, hsearch⟩ := (h.threads a).searching
  intro hfull
  have hmet := fun c (hc : a ≠ c) => met_of_full h' hfull hc
  have hdepth : ((markStep s a w rest).thread a).currDepth = (s.thread a).currDepth := by
    rw [markStep, State.setThread_thread_self]
    exact meet_currDepth _ _ _
  have hpc : ((markStep s a w rest).thread a).pc ≠ .stopped := by
    rw [markStep, State.setThread_thread_self]
    intro hstop
    cases hstop
  rw [if_neg hpc, hdepth]
  by_cases hbefore : (s.thread a).visitedFlag = input.fullFlag
  · obtain ⟨c, hc, heq⟩ := hold hbefore
    rw [if_neg hen] at heq
    refine ⟨c, hc, ?_⟩
    obtain ⟨-, hnone, -, -⟩ | ⟨-, hsame⟩ := info_markStep_self hsearch w rest c
    · exact absurd hnone (met_of_full h hbefore hc)
    · rw [hsame, heq]
  · obtain ⟨c, hc, hnone⟩ := exists_not_met h hbefore
    refine ⟨c, hc, ?_⟩
    obtain ⟨-, -, -, hnew⟩ | ⟨-, hsame⟩ := info_markStep_self hsearch w rest c
    · rw [hnew]
    · exact absurd (hsame ▸ hnone) (hmet c hc)

theorem lastMet_step {s' : State input.numHouse (Fin input.numVertices)} {x : Fin input.numHouse}
    (h : Inv input s) (hstep : Step input s x s') (hold : LastMet input s a) :
    LastMet input s' a := by
  have h' := inv_step h hstep
  obtain ⟨hen, rfl⟩ := hstep
  by_cases hx : a = x
  · subst hx
    have hwithin : ∀ front (pc : Pc (Fin input.numVertices)), pc ≠ .stopped →
        LastMet input (s.setThread a { s.thread a with front := front, pc := pc }) a := by
      intro front pc hpc
      exact hold.setThread hen rfl rfl fun _ => if_neg hpc
    rw [effect] at h' ⊢
    cases hpc : (s.thread a).pc <;> rw [hpc] at h' <;> dsimp only at h' ⊢
    case dequeue =>
      obtain ⟨m, -, hsearch⟩ := (h.threads a).searching
      rw [List.getElem?_eq_getElem hsearch.front_lt]
      split
      · rename_i hnone
        cases hnone
      · refine hold.setThread hen rfl rfl fun hfull => ?_
        exact if_pos (if_pos hfull)
      · exact hwithin _ _ (by simp)
    case test rest =>
      cases rest with
      | nil => exact hwithin _ _ (by simp)
      | cons w rest =>
        dsimp only
        split
        · exact hwithin _ _ (by simp)
        · exact hwithin _ _ (by simp)
    case mark w rest => exact lastMet_markStep h h' hen hold
    case stopped => exact absurd hpc hen
  · simp only [LastMet, info, thread_effect_of_ne hx]
    exact hold

theorem lastMet_of_run (hne : a ≠ b) (hrun : Run (Step input) (initial input) trace s) :
    LastMet input s a := by
  apply hrun.invariant (P := fun _ s => LastMet input s a)
  · intro hfull
    exact absurd rfl (met_of_full inv_initial hfull hne)
  · intro trace s x s' hrun hold hstep
    exact lastMet_step (inv_of_run hrun) hstep hold

/-! ### When every read finds a fence -/

/-- The thread `a` met another thread deeper than `d`. -/
def MeetsDeeper {n : ℕ} {V : Type*} (s : State n V) (a : Fin n) (d : ℕ) : Prop :=
  ∃ c, a ≠ c ∧ d < (info s a c).depth

/-- The thread `a` met `b` on a vertex at distance `d` from the house of `b`. -/
def MetAt (input : Input) (s : State input.numHouse (Fin input.numVertices))
    (a b : Fin input.numHouse) (d : ℕ) : Prop :=
  ∃ v, (info s a b).vid = some v ∧ input.roads.dist (input.house b) v = d

/-- The pair `p` is among those with the sum of depths that a loop looks for, and the loop goes on at
those before it. -/
def Reached {n : ℕ} {V : Type*} (s : State n V) (goesOn : Fin n → Fin n → Prop)
    (p : Fin n × Fin n) : Prop :=
  p.1 < p.2 ∧ ∀ q : Fin n × Fin n, q.1 < q.2 → dist s q = dist s p → Before q p → goesOn q.1 q.2

/-- Both threads met the other on a vertex at the recorded depth of the other: the first loop goes on
with the next pair. -/
def MinGoesOn (input : Input) (s : State input.numHouse (Fin input.numVertices))
    (i j : Fin input.numHouse) : Prop :=
  MetAt input s i j (info (stored s) j i).depth ∧ MetAt input s j i (info (stored s) i j).depth

/-- One of the threads met the other one depth above: the second loop goes on with the next pair. -/
def MaxGoesOn (input : Input) (s : State input.numHouse (Fin input.numVertices))
    (i j : Fin input.numHouse) : Prop :=
  MetAt input s i j ((info (stored s) j i).depth - 1) ∨
    MetAt input s j i ((info (stored s) i j).depth - 1)

/-- The fences behind the meetings of the minimal pairs are there, and no depth of a maximal pair has
been cut to zero. Both are asked only of the pairs and threads that the loops get to. -/
structure FencesLeft (input : Input) (s : State input.numHouse (Fin input.numVertices)) : Prop where
  least : ∀ p : Fin input.numHouse × Fin input.numHouse,
    (∀ q : Fin input.numHouse × Fin input.numHouse, q.1 < q.2 → dist (stored s) p ≤ dist (stored s) q) →
    Reached (stored s) (MinGoesOn input s) p →
    MeetsDeeper s p.2 (info (stored s) p.2 p.1).depth ∧
      (MetAt input s p.1 p.2 (info (stored s) p.2 p.1).depth →
        MeetsDeeper s p.1 (info (stored s) p.1 p.2).depth)
  greatest : ∀ p : Fin input.numHouse × Fin input.numHouse,
    (∀ q : Fin input.numHouse × Fin input.numHouse, q.1 < q.2 → dist (stored s) q ≤ dist (stored s) p) →
    Reached (stored s) (MaxGoesOn input s) p →
    0 < (info (stored s) p.2 p.1).depth ∧
      (¬ MetAt input s p.1 p.2 ((info (stored s) p.2 p.1).depth - 1) →
        0 < (info (stored s) p.1 p.2).depth)

theorem stored_depth (i j : Fin input.numHouse) :
    (info (stored s) i j).depth = (info s i j).depth % 65536 := rfl

theorem inDepth_stored_iff (h : Inv input s) (hall : AllStopped input s) (hne : a ≠ b)
    (hd : d ≤ (s.thread b).currDepth) :
    inDepth ((stored s).thread b) d (info (stored s) a b).vid = true ↔ MetAt input s a b d := by
  obtain ⟨v, hv⟩ := Option.ne_none_iff_exists'.1 (met_of_stopped h (hall a) hne).1
  refine (inDepth_info_iff h (hall b) hv hd).trans ⟨fun hdist => ⟨v, hv, hdist⟩, ?_⟩
  rintro ⟨u, hu, hdist⟩
  rw [hv] at hu
  cases hu
  exact hdist

/-- What has been recorded when all threads have stopped. -/
structure Joined (input : Input) (s : State input.numHouse (Fin input.numVertices)) : Prop where
  fence_length : ∀ a, (s.thread a).depthFence.length = (s.thread a).currDepth + 1
  stored_le : ∀ a b, a ≠ b → (info (stored s) a b).depth ≤ (s.thread a).currDepth
  deeper_iff : ∀ a b, a ≠ b → ∀ d, MeetsDeeper s a d ↔ d < (s.thread a).currDepth
  inDepth_iff : ∀ a b, a ≠ b → ∀ d ≤ (s.thread b).currDepth,
    (inDepth ((stored s).thread b) d (info (stored s) a b).vid = true ↔ MetAt input s a b d)

theorem joined_of_run (hrun : Run (Step input) (initial input) trace s) (hall : AllStopped input s) :
    Joined input s where
  fence_length a := by
    obtain ⟨m, -, hsearch⟩ := ((inv_of_run hrun).threads a).searching
    exact hsearch.fence_length
  stored_le a b hne := (Nat.mod_le _ _).trans (met_of_stopped (inv_of_run hrun) (hall a) hne).2
  deeper_iff a b hne d := by
    have hinv := inv_of_run hrun
    have ht := hinv.threads a
    rw [ThreadInv, hall a] at ht
    obtain ⟨c, hc, hlast⟩ := lastMet_of_run hne hrun ht.2.1
    rw [if_pos (hall a)] at hlast
    constructor
    · rintro ⟨x, hx, hlt⟩
      exact hlt.trans_le (met_of_stopped hinv (hall a) hx).2
    · intro hlt
      exact ⟨c, hc, hlast ▸ hlt⟩
  inDepth_iff _ _ hne _ hd := inDepth_stored_iff (inv_of_run hrun) hall hne hd

section Joined

variable {p : Fin input.numHouse × Fin input.numHouse}

theorem inRange_iff (h : Joined input s) {k : ℤ} :
    InRange (stored s) (a, k) ↔ 0 ≤ k ∧ k ≤ (s.thread a).currDepth := by
  have hlength : ((stored s).thread a).depthFence.length = (s.thread a).currDepth + 1 := h.fence_length a
  rw [InRange]
  dsimp only
  omega

theorem minReads_inRange_iff (h : Joined input s) (hp : p.1 < p.2) :
    (∀ read ∈ minReads (stored s) p, InRange (stored s) read) ↔
      MeetsDeeper s p.2 (info (stored s) p.2 p.1).depth ∧
        (MetAt input s p.1 p.2 (info (stored s) p.2 p.1).depth →
          MeetsDeeper s p.1 (info (stored s) p.1 p.2).depth) := by
  have hle1 := h.stored_le p.1 p.2 hp.ne
  have hle2 := h.stored_le p.2 p.1 hp.ne'
  rw [h.deeper_iff p.2 p.1 hp.ne', h.deeper_iff p.1 p.2 hp.ne, minReads,
    ← h.inDepth_iff p.1 p.2 hp.ne _ hle2]
  split
  · rename_i hfound
    simp only [List.cons_append, List.nil_append, List.forall_mem_cons, List.not_mem_nil,
      false_imp_iff, implies_true, and_true, inRange_iff h, hfound, true_imp_iff]
    omega
  · rename_i hnot
    simp only [List.append_nil, List.forall_mem_cons, List.not_mem_nil, false_imp_iff, implies_true,
      and_true, inRange_iff h, hnot, Bool.false_eq_true]
    omega

theorem maxReads_inRange_iff (h : Joined input s) (hp : p.1 < p.2) :
    (∀ read ∈ maxReads (stored s) p, InRange (stored s) read) ↔
      0 < (info (stored s) p.2 p.1).depth ∧
        (¬ MetAt input s p.1 p.2 ((info (stored s) p.2 p.1).depth - 1) →
          0 < (info (stored s) p.1 p.2).depth) := by
  have hle1 := h.stored_le p.1 p.2 hp.ne
  have hle2 := h.stored_le p.2 p.1 hp.ne'
  rw [maxReads, ← h.inDepth_iff p.1 p.2 hp.ne _ ((Nat.sub_le _ 1).trans hle2)]
  split
  · rename_i hfound
    simp only [List.append_nil, List.forall_mem_cons, List.not_mem_nil, false_imp_iff, implies_true,
      and_true, inRange_iff h, hfound, not_true]
    omega
  · rename_i hnot
    simp only [List.cons_append, List.nil_append, List.forall_mem_cons, List.not_mem_nil,
      false_imp_iff, implies_true, and_true, inRange_iff h, hnot, Bool.false_eq_true,
      not_false_iff, true_imp_iff]
    omega

theorem minBreaks_stored (h : Joined input s) (hp : p.1 < p.2) :
    minBreaks (stored s) p = false ↔ MinGoesOn input s p.1 p.2 := by
  rw [minBreaks, MinGoesOn, Bool.or_eq_false_iff, Bool.not_eq_false', Bool.not_eq_false',
    h.inDepth_iff p.1 p.2 hp.ne _ (h.stored_le p.2 p.1 hp.ne'),
    h.inDepth_iff p.2 p.1 hp.ne' _ (h.stored_le p.1 p.2 hp.ne)]

theorem maxBreaks_stored (h : Joined input s) (hp : p.1 < p.2) :
    maxBreaks (stored s) p = false ↔ MaxGoesOn input s p.1 p.2 := by
  rw [maxBreaks, MaxGoesOn, Bool.and_eq_false_iff, Bool.not_eq_false', Bool.not_eq_false',
    h.inDepth_iff p.1 p.2 hp.ne _ ((Nat.sub_le _ 1).trans (h.stored_le p.2 p.1 hp.ne')),
    h.inDepth_iff p.2 p.1 hp.ne' _ ((Nat.sub_le _ 1).trans (h.stored_le p.1 p.2 hp.ne))]

theorem dist_eq_minDist_iff (hp : p.1 < p.2) :
    dist (stored s) p = minDist (stored s) ↔
      ∀ q : Fin input.numHouse × Fin input.numHouse, q.1 < q.2 →
        dist (stored s) p ≤ dist (stored s) q := by
  have hlt : ∀ q ∈ pairs input.numHouse, dist (stored s) q < 999999999 := by
    intro q _
    rw [dist, stored_depth, stored_depth]
    omega
  obtain ⟨⟨x, hx, heq⟩, hle⟩ := isLeast_minDist (stored s) ⟨p, mem_pairs.2 hp⟩ hlt
  constructor
  · intro hmin q hq
    exact hmin.le.trans (hle ⟨q, mem_pairs.2 hq, rfl⟩)
  · intro hmin
    exact le_antisymm ((hmin x (mem_pairs.1 hx)).trans heq.le) (hle ⟨p, mem_pairs.2 hp, rfl⟩)

theorem dist_eq_maxDist_iff (hp : p.1 < p.2) :
    dist (stored s) p = maxDist (stored s) ↔
      ∀ q : Fin input.numHouse × Fin input.numHouse, q.1 < q.2 →
        dist (stored s) q ≤ dist (stored s) p := by
  obtain ⟨⟨x, hx, heq⟩, hle⟩ := isGreatest_maxDist (stored s) ⟨p, mem_pairs.2 hp⟩
  constructor
  · intro hmax q hq
    exact (hle ⟨q, mem_pairs.2 hq, rfl⟩).trans hmax.ge
  · intro hmax
    exact le_antisymm (hle ⟨p, mem_pairs.2 hp, rfl⟩) (heq.ge.trans (hmax x (mem_pairs.1 hx)))

/-- The pairs that a loop looks at. -/
theorem mem_examined_iff_reached {breaks : Fin input.numHouse × Fin input.numHouse → Bool}
    {goesOn : Fin input.numHouse → Fin input.numHouse → Prop} {m : ℕ}
    {best : Fin input.numHouse × Fin input.numHouse → Prop}
    (hbreaks : ∀ q, q.1 < q.2 → (breaks q = false ↔ goesOn q.1 q.2))
    (hbest : ∀ q, q.1 < q.2 → (dist (stored s) q = m ↔ best q)) :
    p ∈ examined breaks ((pairs input.numHouse).filter fun p => dist (stored s) p = m) ↔
      best p ∧ Reached (stored s) goesOn p := by
  rw [mem_examined_pairs, Reached]
  constructor
  · rintro ⟨hp, rfl, hbefore⟩
    refine ⟨(hbest p hp).1 rfl, hp, fun q hq heq hlt => ?_⟩
    exact (hbreaks q hq).1 (hbefore q hq heq hlt)
  · rintro ⟨hp, hlt, hbefore⟩
    obtain rfl := (hbest p hlt).2 hp
    refine ⟨hlt, rfl, fun q hq heq hlt => ?_⟩
    exact (hbreaks q hq).2 (hbefore q hq heq hlt)

end Joined

/-- When the threads have stopped, `MakeResult` reads only recorded fences just if these are left. -/
theorem fences_in_range_iff (hrun : Run (Step input) (initial input) trace s)
    (hall : AllStopped input s) : FencesInRange (stored s) ↔ FencesLeft input s := by
  have hjoined := joined_of_run hrun hall
  have hmin := fun p => mem_examined_iff_reached (s := s) (p := p)
    (fun q => minBreaks_stored hjoined (p := q)) fun q hq => dist_eq_minDist_iff hq
  have hmax := fun p => mem_examined_iff_reached (s := s) (p := p)
    (fun q => maxBreaks_stored hjoined (p := q)) fun q hq => dist_eq_maxDist_iff hq
  constructor
  · intro hrange
    refine ⟨fun p hp hreached => ?_, fun p hp hreached => ?_⟩
    · refine (minReads_inRange_iff hjoined hreached.1).1 fun read hread => hrange read ?_
      exact List.mem_append_left _ (List.mem_flatMap.2 ⟨p, (hmin p).2 ⟨hp, hreached⟩, hread⟩)
    · refine (maxReads_inRange_iff hjoined hreached.1).1 fun read hread => hrange read ?_
      exact List.mem_append_right _ (List.mem_flatMap.2 ⟨p, (hmax p).2 ⟨hp, hreached⟩, hread⟩)
  · intro hleft read hread
    obtain hread | hread := List.mem_append.1 hread
    · obtain ⟨p, hp, hread⟩ := List.mem_flatMap.1 hread
      obtain ⟨hleast, hreached⟩ := (hmin p).1 hp
      exact (minReads_inRange_iff hjoined hreached.1).2 (hleft.least p hleast hreached) read hread
    · obtain ⟨p, hp, hread⟩ := List.mem_flatMap.1 hread
      obtain ⟨hgreatest, hreached⟩ := (hmax p).1 hp
      exact (maxReads_inRange_iff hjoined hreached.1).2 (hleft.greatest p hgreatest hreached) read hread

theorem three_le_maxNumHouse : 3 ≤ maxNumHouse := by decide

/-- Four vertices in a row; the houses at its start are neighbours, and the third is at its end. -/
def twoAndOne : Input where
  numVertices := 4
  numHouse := 3
  house := ![0, 1, 3]
  edges := [(1, 0), (1, 2), (2, 3)]
  numHouse_le := three_le_maxNumHouse
  house_injective := by decide
  degree_le := by decide
  connected := connected_of_descent 0 Fin.val (by decide)

/-- The threads run one after another. The two neighbours meet the third thread deeper than each
other. -/
def oneByOne : List (Fin twoAndOne.numHouse) :=
  (List.replicate 17 0 ++ List.replicate 16 1 ++ List.replicate 5 2 : List (Fin 3))

theorem fences_in_range_oneByOne :
    FencesInRange (stored (execute (effect twoAndOne) (initial twoAndOne) oneByOne)) ∧
      FencesLeft twoAndOne (execute (effect twoAndOne) (initial twoAndOne) oneByOne) := by
  have hrange : FencesInRange (stored (execute (effect twoAndOne) (initial twoAndOne) oneByOne)) := by
    decide +kernel
  exact ⟨hrange, (fences_in_range_iff (run_execute (by decide +kernel)) (by decide +kernel)).1 hrange⟩

/-- With two houses the last meeting of a thread is its only one, and no fence lies behind it. -/
theorem crossing_reads_past :
    Run (Step neighbors) (initial neighbors) crossing.reverse
        (execute (effect neighbors) (initial neighbors) crossing) ∧
      AllStopped neighbors (execute (effect neighbors) (initial neighbors) crossing) ∧
      (∃ read ∈ fenceReads (stored (execute (effect neighbors) (initial neighbors) crossing)),
        read.1.val = 1 ∧ read.2 = 2) ∧
      ((execute (effect neighbors) (initial neighbors) crossing).thread (1 : Fin 2)).depthFence.length = 2 ∧
      ¬ FencesInRange (stored (execute (effect neighbors) (initial neighbors) crossing)) :=
  ⟨run_crossing, by decide +kernel, by decide +kernel, by decide +kernel, by decide +kernel⟩

end Multicore.Reference
