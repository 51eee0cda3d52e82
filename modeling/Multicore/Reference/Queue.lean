import Multicore.Base.Index
import Multicore.Reference.Flags

/-!
# The search of one thread

A thread enqueues the vertices it marks behind the fence of the depth it is working on, so the fences
before an entry count the depth of the entry. `Searching` says that this depth is the distance from
the thread's house, and where the fences recorded in `g_depth_fence_in_queue` lie. It speaks of the
vertices the thread has marked and not of the shared words, because no other thread touches these
marks.
-/

namespace Multicore.Reference

/-! ### Counting fences -/

namespace Entry

variable {V : Type*}

def isFence : Entry V → Bool
  | .vertex _ => false
  | .fence _ => true

def vertex? : Entry V → Option V
  | .vertex v => some v
  | .fence _ => none

@[simp] theorem isFence_vertex (v : V) : (vertex v).isFence = false := rfl

@[simp] theorem isFence_fence (d : ℕ) : (fence d : Entry V).isFence = true := rfl

theorem vertex?_eq_some_iff {e : Entry V} {v : V} : e.vertex? = some v ↔ e = .vertex v := by
  cases e with
  | vertex u => simp [vertex?]
  | fence d => simp [vertex?]

end Entry

section Fences

variable {V : Type*} {queue : List (Entry V)} {j k : ℕ}

/-- The number of fences before an index, which is the depth of the entry there. -/
def depthAt (queue : List (Entry V)) (j : ℕ) : ℕ := (queue.take j).countP Entry.isFence

theorem depthAt_mono (hle : j ≤ k) : depthAt queue j ≤ depthAt queue k :=
  ((List.take_prefix_take_left hle).sublist).countP_le

theorem depthAt_succ {e : Entry V} (he : queue[j]? = some e) :
    depthAt queue (j + 1) = depthAt queue j + if e.isFence then 1 else 0 := by
  rw [depthAt, List.take_add_one, he, Option.toList_some, List.countP_append, List.countP_singleton,
    depthAt]

theorem depthAt_append_of_le {later : List (Entry V)} (hle : j ≤ queue.length) :
    depthAt (queue ++ later) j = depthAt queue j := by
  rw [depthAt, List.take_append_of_le_length hle, depthAt]

theorem depthAt_length : depthAt queue queue.length = queue.countP Entry.isFence := by
  rw [depthAt, List.take_length]

/-- Behind a fence the depth is greater. -/
theorem depthAt_lt_of_fence {d : ℕ} (hfence : queue[j]? = some (.fence d)) (hlt : j < k) :
    depthAt queue j < depthAt queue k := by
  have hsucc := depthAt_succ hfence
  have hmono : depthAt queue (j + 1) ≤ depthAt queue k := depthAt_mono hlt
  rw [Entry.isFence_fence, if_pos rfl] at hsucc
  omega

theorem filterMap_append_fence (d : ℕ) :
    (queue ++ [Entry.fence d]).filterMap Entry.vertex? = queue.filterMap Entry.vertex? := by
  rw [List.filterMap_append]
  exact List.append_nil _

theorem filterMap_append_vertex (v : V) :
    (queue ++ [Entry.vertex v]).filterMap Entry.vertex? = queue.filterMap Entry.vertex? ++ [v] :=
  List.filterMap_append

theorem mem_filterMap_vertex? {v : V} :
    v ∈ queue.filterMap Entry.vertex? ↔ Entry.vertex v ∈ queue := by
  simp [List.mem_filterMap, Entry.vertex?_eq_some_iff]

theorem length_eq_countP_add (queue : List (Entry V)) :
    queue.length = queue.countP Entry.isFence + (queue.filterMap Entry.vertex?).length := by
  induction queue with
  | nil => rfl
  | cons e queue ih =>
    cases e with
    | vertex v =>
      rw [List.length_cons, List.countP_cons_of_neg (by simp),
        List.filterMap_cons_some (show Entry.vertex? (.vertex v) = some v from rfl), List.length_cons]
      omega
    | fence d =>
      rw [List.length_cons, List.countP_cons_of_pos rfl,
        List.filterMap_cons_none (show Entry.vertex? (.fence d : Entry V) = none from rfl)]
      omega

end Fences

/-! ### The table of neighbours -/

section Neighbors

variable {V : Type*} [DecidableEq V]

theorem mem_addNeighbor {graph : V → List V} {vid neighbor u v : V} :
    v ∈ addNeighbor graph vid neighbor u ↔ v ∈ graph u ∨ (u = vid ∧ v = neighbor) := by
  by_cases hu : u = vid
  · subst hu
    simp [addNeighbor]
  · simp [addNeighbor, hu]

theorem mem_readGraph {edges : List (V × V)} {graph : V → List V} {u v : V} :
    v ∈ readGraph edges graph u ↔ v ∈ graph u ∨ (u, v) ∈ edges ∨ (v, u) ∈ edges := by
  induction edges generalizing graph with
  | nil => simp [readGraph]
  | cons e edges ih =>
    change v ∈ readGraph edges (addNeighbor (addNeighbor graph e.1 e.2) e.2 e.1) u ↔ _
    rw [ih, mem_addNeighbor, mem_addNeighbor]
    simp only [List.mem_cons, Prod.ext_iff]
    tauto

end Neighbors

variable {input : Input} {a : Fin input.numHouse} {u v : Fin input.numVertices}

theorem Input.eq_or_adj_of_mem_graph (hmem : v ∈ input.graph u) : u = v ∨ input.roads.Adj u v := by
  rw [Input.graph, mem_readGraph] at hmem
  by_cases heq : u = v
  · exact .inl heq
  · refine .inr (edgeGraph_adj.2 ⟨heq, ?_⟩)
    simpa using hmem

theorem Input.mem_graph_of_adj (hadj : input.roads.Adj u v) : v ∈ input.graph u := by
  rw [Input.graph, mem_readGraph]
  exact .inr (edgeGraph_adj.1 hadj).2

/-! ### The invariant of a thread -/

/-- The vertices enqueued before index `m`. -/
def dequeued {V : Type*} (queue : List (Entry V)) (m : ℕ) : Set V :=
  {v | ∃ j < m, queue[j]? = some (.vertex v)}

/-- The search of the thread `a`, which has marked the vertices `marked` and looked at all neighbours
of those enqueued before index `m`. -/
structure Searching (input : Input) (a : Fin input.numHouse) (marked : Set (Fin input.numVertices))
    (m : ℕ) (t : Thread (Fin input.numVertices)) : Prop where
  mem_queue : ∀ v, Entry.vertex v ∈ t.queue ↔ v ∈ marked
  nodup : (t.queue.filterMap Entry.vertex?).Nodup
  dist_eq : ∀ (j : ℕ) v, t.queue[j]? = some (.vertex v) →
    input.roads.dist (input.house a) v = depthAt t.queue j
  front_depth : depthAt t.queue t.front = t.currDepth
  countP_eq : t.queue.countP Entry.isFence = t.currDepth + 1
  explored : Explored input.roads (input.house a) marked (dequeued t.queue m) t.currDepth
  fence_length : t.depthFence.length = t.currDepth + 1
  fence_zero : t.depthFence[0]? = some 0
  fence_at : ∀ (k p : ℕ), t.depthFence[k + 1]? = some p →
    (∃ d, t.queue[p]? = some (.fence d)) ∧ depthAt t.queue p = k
  visited_iff : ∀ b : ℕ, t.visitedFlag.getLsbD b = true ↔ b = a ∨ (t.visitInfo b).vid ≠ none

/-- The thread is looking at the neighbours of `v`, the entry before the front; those in `rest` are
left. -/
structure Scanning (input : Input) (a : Fin input.numHouse) (marked : Set (Fin input.numVertices))
    (v : Fin input.numVertices) (rest : List (Fin input.numVertices)) (m : ℕ)
    (t : Thread (Fin input.numVertices)) : Prop where
  searching : Searching input a marked m t
  front_eq : t.front = m + 1
  current : t.queue[m]? = some (.vertex v)
  mem_graph : ∀ w ∈ rest, w ∈ input.graph v
  left : ∀ w ∈ input.graph v, w ∈ marked ∨ w ∈ rest

def ThreadInv (input : Input) (a : Fin input.numHouse) (marked : Set (Fin input.numVertices))
    (t : Thread (Fin input.numVertices)) : Prop :=
  match t.pc with
  | .dequeue => Searching input a marked t.front t
  | .test rest => ∃ v m, Scanning input a marked v rest m t
  | .mark neighbor rest => neighbor ∉ marked ∧ ∃ v m, Scanning input a marked v (neighbor :: rest) m t
  | .stopped => Searching input a marked t.front t ∧ t.visitedFlag = input.fullFlag ∧
      ∀ v ∈ marked, input.roads.dist (input.house a) v ≤ t.currDepth

section Steps

variable {marked : Set (Fin input.numVertices)} {m : ℕ} {t : Thread (Fin input.numVertices)}
  {w : Fin input.numVertices} {rest : List (Fin input.numVertices)}

namespace Searching

theorem relabel (h : Searching input a marked m t) (pc : Pc (Fin input.numVertices)) :
    Searching input a marked m { t with pc := pc } :=
  ⟨h.mem_queue, h.nodup, h.dist_eq, h.front_depth, h.countP_eq, h.explored, h.fence_length,
    h.fence_zero, h.fence_at, h.visited_iff⟩

/-- There is always a fence ahead, so the queue is never empty. -/
theorem front_lt (h : Searching input a marked m t) : t.front < t.queue.length := by
  by_contra hge
  have hdepth := h.front_depth
  rw [depthAt, List.take_of_length_le (not_lt.1 hge), h.countP_eq] at hdepth
  omega

theorem exists_index (h : Searching input a marked m t) (hv : v ∈ marked) :
    ∃ j : ℕ, t.queue[j]? = some (.vertex v) :=
  List.mem_iff_getElem?.1 ((h.mem_queue v).2 hv)

/-- At the fence every vertex of the current depth has been dequeued. -/
theorem mem_dequeued (h : Searching input a marked t.front t) {d : ℕ}
    (hfence : t.queue[t.front]? = some (.fence d))
    (hv : input.roads.dist (input.house a) v = t.currDepth) : v ∈ dequeued t.queue t.front := by
  obtain ⟨j, hj⟩ := h.exists_index (h.explored.complete v hv.le)
  have hdepth := h.dist_eq j v hj
  refine ⟨j, ?_, hj⟩
  by_contra hge
  obtain heq | hlt := Nat.eq_or_lt_of_le (not_lt.1 hge)
  · rw [heq, hj] at hfence
    cases hfence
  · have hbehind := depthAt_lt_of_fence hfence hlt
    rw [h.front_depth] at hbehind
    omega

theorem passFence (h : Searching input a marked t.front t) {d : ℕ}
    (hfence : t.queue[t.front]? = some (.fence d)) (fullFlag : BitVec 64) :
    Searching input a marked (t.front + 1) (t.passFence fullFlag) where
  mem_queue v := by
    rw [← h.mem_queue v]
    simp [Thread.passFence]
  nodup := by
    rw [Thread.passFence, filterMap_append_fence]
    exact h.nodup
  dist_eq j v hj := by
    obtain hj | ⟨-, heq⟩ := getElem?_append_singleton hj
    · have hlt : j < t.queue.length := lt_length_of_getElem? hj
      exact (h.dist_eq j v hj).trans (depthAt_append_of_le hlt.le).symm
    · cases heq
  front_depth := by
    show depthAt (t.queue ++ [Entry.fence (t.currDepth + 1)]) (t.front + 1) = t.currDepth + 1
    rw [depthAt_append_of_le h.front_lt, depthAt_succ hfence, h.front_depth]
    rfl
  countP_eq := by
    show (t.queue ++ [Entry.fence (t.currDepth + 1)]).countP Entry.isFence = t.currDepth + 1 + 1
    rw [List.countP_append, h.countP_eq]
    rfl
  explored := by
    have hnext := h.explored.next fun u hu => h.mem_dequeued hfence hu
    refine ⟨hnext.complete, hnext.bounded, ?_⟩
    rintro u ⟨j, hj, hget⟩
    obtain hget | ⟨-, heq⟩ := getElem?_append_singleton hget
    · have hne : j ≠ t.front := by
        intro heq
        rw [heq, hfence] at hget
        cases hget
      exact hnext.adj_mem u ⟨j, by omega, hget⟩
    · cases heq
  fence_length := by
    show (t.depthFence ++ [t.front]).length = t.currDepth + 1 + 1
    rw [List.length_append, h.fence_length]
    rfl
  fence_zero := getElem?_append_of_some h.fence_zero
  fence_at k p hp := by
    obtain hp | ⟨hk, rfl⟩ := getElem?_append_singleton hp
    · obtain ⟨⟨d, hd⟩, hdepth⟩ := h.fence_at k p hp
      have hlt : p < t.queue.length := lt_length_of_getElem? hd
      exact ⟨⟨d, getElem?_append_of_some hd⟩, (depthAt_append_of_le hlt.le).trans hdepth⟩
    · rw [h.fence_length] at hk
      refine ⟨⟨d, getElem?_append_of_some hfence⟩, ?_⟩
      exact (depthAt_append_of_le h.front_lt.le).trans (h.front_depth.trans (by omega))
  visited_iff := h.visited_iff

/-- A vertex is dequeued. -/
theorem dequeueVertex (h : Searching input a marked t.front t)
    (hv : t.queue[t.front]? = some (.vertex v)) :
    Scanning input a marked v (input.graph v) t.front
      { t with front := t.front + 1, pc := .test (input.graph v) } where
  searching := ⟨h.mem_queue, h.nodup, h.dist_eq, (depthAt_succ hv).trans h.front_depth, h.countP_eq,
    h.explored, h.fence_length, h.fence_zero, h.fence_at, h.visited_iff⟩
  front_eq := rfl
  current := hv
  mem_graph _ hw := hw
  left _ hw := .inr hw

end Searching

namespace Scanning

theorem relabel (h : Scanning input a marked v rest m t) (pc : Pc (Fin input.numVertices)) :
    Scanning input a marked v rest m { t with pc := pc } :=
  ⟨h.searching.relabel pc, h.front_eq, h.current, h.mem_graph, h.left⟩

/-- The vertex under scan lies at the current depth. -/
theorem dist_current (h : Scanning input a marked v rest m t) :
    input.roads.dist (input.house a) v = t.currDepth := by
  have hdepth := depthAt_succ h.current
  rw [← h.front_eq, h.searching.front_depth] at hdepth
  exact (h.searching.dist_eq m v h.current).trans hdepth.symm

theorem mem_marked (h : Scanning input a marked v rest m t) : v ∈ marked :=
  (h.searching.mem_queue v).1 (List.mem_of_getElem? h.current)

/-- All neighbours have been looked at. -/
theorem finish (h : Scanning input a marked v [] m t) : Searching input a marked t.front t := by
  have hclosed := h.searching.explored.close (u := v) fun w hw =>
    (h.left w (Input.mem_graph_of_adj hw)).resolve_right List.not_mem_nil
  have hsearch := h.searching
  refine ⟨hsearch.mem_queue, hsearch.nodup, hsearch.dist_eq, hsearch.front_depth, hsearch.countP_eq,
    ⟨hclosed.complete, hclosed.bounded, ?_⟩, hsearch.fence_length, hsearch.fence_zero,
    hsearch.fence_at, hsearch.visited_iff⟩
  rintro u ⟨j, hj, hget⟩
  rw [h.front_eq] at hj
  apply hclosed.adj_mem u
  obtain hlt | rfl := Nat.lt_succ_iff_lt_or_eq.1 hj
  · exact Set.mem_insert_of_mem v ⟨j, hlt, hget⟩
  · rw [h.current] at hget
    cases hget
    exact Set.mem_insert v _

theorem skip (h : Scanning input a marked v (w :: rest) m t) (hw : w ∈ marked) :
    Scanning input a marked v rest m t := by
  refine ⟨h.searching, h.front_eq, h.current, fun x hx => h.mem_graph x (List.mem_cons_of_mem w hx),
    fun x hx => ?_⟩
  obtain hmem | hmem := h.left x hx
  · exact .inl hmem
  · obtain rfl | hmem := List.mem_cons.1 hmem
    · exact .inl hw
    · exact .inr hmem

/-- A neighbour without the mark lies one deeper. -/
theorem dist_new (h : Scanning input a marked v (w :: rest) m t) (hw : w ∉ marked) :
    input.roads.dist (input.house a) w = t.currDepth + 1 := by
  obtain rfl | hadj := Input.eq_or_adj_of_mem_graph (h.mem_graph w List.mem_cons_self)
  · exact absurd h.mem_marked hw
  · exact h.searching.explored.dist_of_new input.connected h.dist_current hadj hw

end Scanning

/-- What a mark does to the queue of the thread. -/
theorem Searching.enqueue (h : Searching input a marked m t) (hm : m ≤ t.queue.length)
    (hw : w ∉ marked) (hdist : input.roads.dist (input.house a) w = t.currDepth + 1)
    (before : BitVec 64) (pc : Pc (Fin input.numVertices)) :
    Searching input a (insert w marked) m
      { t.meet w before with queue := (t.meet w before).queue ++ [Entry.vertex w], pc := pc } := by
  have hvertex : ∀ (j : ℕ) x, (t.queue ++ [Entry.vertex w])[j]? = some (.vertex x) →
      t.queue[j]? = some (.vertex x) ∨ (j = t.queue.length ∧ x = w) := by
    intro j x hj
    obtain hj | ⟨hlen, heq⟩ := getElem?_append_singleton hj
    · exact .inl hj
    · cases heq
      exact .inr ⟨hlen, rfl⟩
  constructor
  all_goals try simp only [meet_queue, meet_front, meet_currDepth, meet_depthFence]
  case mem_queue =>
    intro x
    simp only [List.mem_append, List.mem_singleton, Entry.vertex.injEq, h.mem_queue x,
      Set.mem_insert_iff]
    exact or_comm
  case nodup =>
    rw [filterMap_append_vertex, List.nodup_append]
    refine ⟨h.nodup, List.nodup_singleton w, fun x hx y hy heq => hw ?_⟩
    rw [List.mem_singleton] at hy
    rw [← hy, ← heq, ← h.mem_queue]
    exact mem_filterMap_vertex?.1 hx
  case dist_eq =>
    intro j x hj
    obtain hj | ⟨rfl, rfl⟩ := hvertex j x hj
    · have hlt : j < t.queue.length := lt_length_of_getElem? hj
      rw [depthAt_append_of_le hlt.le]
      exact h.dist_eq j x hj
    · rw [depthAt_append_of_le le_rfl, depthAt_length, h.countP_eq, hdist]
  case front_depth =>
    rw [depthAt_append_of_le h.front_lt.le]
    exact h.front_depth
  case countP_eq =>
    rw [List.countP_append, h.countP_eq]
    rfl
  case explored =>
    have hdiscover := h.explored.discover hdist
    refine ⟨hdiscover.complete, hdiscover.bounded, ?_⟩
    rintro x ⟨j, hj, hget⟩
    obtain hget | ⟨hlen, -⟩ := hvertex j x hget
    · exact hdiscover.adj_mem x ⟨j, hj, hget⟩
    · omega
  case fence_length => exact h.fence_length
  case fence_zero => exact h.fence_zero
  case fence_at =>
    intro k p hp
    obtain ⟨⟨d, hd⟩, hdepth⟩ := h.fence_at k p hp
    have hlt : p < t.queue.length := lt_length_of_getElem? hd
    exact ⟨⟨d, getElem?_append_of_some hd⟩, (depthAt_append_of_le hlt.le).trans hdepth⟩
  case visited_iff =>
    intro b
    rw [meet_visitedFlag, meet_visitInfo, Bool.or_eq_true, h.visited_iff b]
    by_cases hvisited : t.visitedFlag.getLsbD b = true
    · have hold := (h.visited_iff b).1 hvisited
      simp only [hvisited, Bool.true_eq_false, and_false, if_false]
      exact iff_of_true (.inl hold) hold
    · rw [Bool.not_eq_true] at hvisited
      by_cases hbefore : before.getLsbD b = true
      · simp [hbefore, hvisited]
      · simp [hbefore]

end Steps

end Multicore.Reference
