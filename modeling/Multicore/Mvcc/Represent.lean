import Multicore.Base.Chain
import Multicore.Mvcc.Section

/-!
# The lists of `Model`, in memory

`Represents` relates the memory the sections work on to the counter, the active list and the queues of
`Model`. Nodes are live, no node is met twice, and the queues share none. The rest says what the list
operations of the source do to memory when they are carried out from beginning to end.
-/

namespace Multicore.Mvcc

variable {n : ℕ}

/-- What only the critical sections change. -/
structure Protected (n : ℕ) where
  atomicCounter : ℕ
  activeList : List (ActiveNode n)
  queue : Fin n → Queue ℤ

def Memory.activeNode (m : Memory n) (a : Addr) : ActiveNode n :=
  ⟨(m.active a).indexThread, (m.active a).version⟩

/-- The nodes `as` hold the list `nodes`. -/
structure ActiveRep (m : Memory n) (as : List Addr) (nodes : List (ActiveNode n)) : Prop where
  chain : Chain (fun a => (m.active a).link) m.activeList as
  nodes : as.map m.activeNode = nodes
  nodup : as.Nodup
  live : ∀ a ∈ as, m.ActiveLive a

/-- The nodes `as` are those of a queue with the entries `vs`. -/
structure QueueRep (m : Memory n) (h : QueueHead) (as : List Addr) (vs : List ℤ) : Prop where
  chain : Chain (fun a => (m.node a).link) h.front as
  versions : as.map (fun a => (m.node a).version) = vs
  count : h.count = vs.length
  rear : as ≠ [] → h.rear = as.getLast?
  nodup : as.Nodup
  live : ∀ a ∈ as, m.NodeLive a

structure QueuesRep (m : Memory n) (qs : Fin n → List Addr) (queue : Fin n → Queue ℤ) : Prop where
  rep : ∀ p, QueueRep m (m.queue p) (qs p) (queue p).versions
  wellFormed : ∀ p, (queue p).WellFormed
  minimum : ∀ p, (m.queue p).minimum = (queue p).minimum
  deleteFront : ∀ p, (m.queue p).deleteFront = (queue p).deleteFront
  apart : ∀ p q a, a ∈ qs p → a ∈ qs q → p = q

structure Represents (m : Memory n) (P : Protected n) : Prop where
  counter : m.atomicCounter = P.atomicCounter
  active : ∃ as, ActiveRep m as P.activeList
  queue : ∃ qs, QueuesRep m qs P.queue
  freshActive : ∀ a, m.nextActive ≤ a → m.activeFreed a = false
  freshNode : ∀ a, m.nextNode ≤ a → m.nodeFreed a = false

/-- The lists depend on their own part of memory. -/
theorem ActiveRep.congr {m m' : Memory n} {as : List Addr} {nodes : List (ActiveNode n)}
    (h : ActiveRep m as nodes) (hactive : m'.active = m.active) (hlist : m'.activeList = m.activeList)
    (hfreed : m'.activeFreed = m.activeFreed) (hnext : m'.nextActive = m.nextActive) :
    ActiveRep m' as nodes := by
  refine ⟨?_, ?_, h.nodup, ?_⟩
  · rw [hactive, hlist]
    exact h.chain
  · rw [← h.nodes]
    exact List.map_congr_left fun a _ => by simp [Memory.activeNode, hactive]
  · simp only [Memory.ActiveLive, hfreed, hnext]
    exact h.live

theorem QueuesRep.congr {m m' : Memory n} {qs : Fin n → List Addr} {queue : Fin n → Queue ℤ}
    (h : QueuesRep m qs queue) (hqueue : m'.queue = m.queue) (hnode : m'.node = m.node)
    (hfreed : m'.nodeFreed = m.nodeFreed) (hnext : m'.nextNode = m.nextNode) :
    QueuesRep m' qs queue := by
  refine ⟨fun p => ⟨?_, ?_, ?_, ?_, (h.rep p).nodup, ?_⟩, h.wellFormed, ?_, ?_, h.apart⟩
  · rw [hqueue, hnode]
    exact (h.rep p).chain
  · rw [hnode]
    exact (h.rep p).versions
  · rw [hqueue]
    exact (h.rep p).count
  · rw [hqueue]
    exact (h.rep p).rear
  · simp only [Memory.NodeLive, hfreed, hnext]
    exact (h.rep p).live
  · rw [hqueue]
    exact h.minimum
  · rw [hqueue]
    exact h.deleteFront

/-- What is done to the active list leaves the queues as they are. -/
theorem Represents.withActive {m m' : Memory n} {P P' : Protected n} (h : Represents m P)
    (hcounter : m'.atomicCounter = P'.atomicCounter) (hactive : ∃ as, ActiveRep m' as P'.activeList)
    (hfresh : ∀ a, m'.nextActive ≤ a → m'.activeFreed a = false) (hP : P'.queue = P.queue)
    (hqueue : m'.queue = m.queue) (hnode : m'.node = m.node) (hfreed : m'.nodeFreed = m.nodeFreed)
    (hnext : m'.nextNode = m.nextNode) : Represents m' P' := by
  refine ⟨hcounter, hactive, ?_, hfresh, ?_⟩
  · obtain ⟨qs, hqs⟩ := h.queue
    exact ⟨qs, hP ▸ hqs.congr hqueue hnode hfreed hnext⟩
  · rw [hnext, hfreed]
    exact h.freshNode

/-- What is done to the queues leaves the active list as it is. -/
theorem Represents.withQueues {m m' : Memory n} {P P' : Protected n} (h : Represents m P)
    (hqueue : ∃ qs, QueuesRep m' qs P'.queue)
    (hfresh : ∀ a, m'.nextNode ≤ a → m'.nodeFreed a = false)
    (hP : P'.atomicCounter = P.atomicCounter ∧ P'.activeList = P.activeList)
    (hcounter : m'.atomicCounter = m.atomicCounter) (hactive : m'.active = m.active)
    (hlist : m'.activeList = m.activeList) (hfreed : m'.activeFreed = m.activeFreed)
    (hnext : m'.nextActive = m.nextActive) : Represents m' P' := by
  refine ⟨?_, ?_, hqueue, ?_, hfresh⟩
  · rw [hcounter, h.counter, hP.1]
  · obtain ⟨as, has⟩ := h.active
    exact ⟨as, hP.2 ▸ has.congr hactive hlist hfreed hnext⟩
  · rw [hnext, hfreed]
    exact h.freshActive

/-- Freeing a node says nothing about addresses that are not yet in use. -/
theorem freed_fresh {freed : Addr → Bool} {next a : Addr} (hfresh : ∀ c, next ≤ c → freed c = false)
    (ha : a < next) : ∀ c, next ≤ c → Function.update freed a true c = false := fun c hc => by
  rw [Function.update_of_ne (ha.trans_le hc).ne']
  exact hfresh c hc

/-! ### The active list -/

section Active

variable {m : Memory n} {as xs ys : List Addr} {a b : Addr} {nodes : List (ActiveNode n)} {i : Fin n}

/-- `InsertGlobalActiveList` -/
def Memory.insertActive (m : Memory n) (i : Fin n) (version : ℕ) : Memory n :=
  ((m.newActive i version).setActiveLink m.nextActive m.activeList).setActiveList (some m.nextActive)

theorem ActiveRep.insert (h : ActiveRep m as nodes) (hfresh : m.activeFreed m.nextActive = false)
    (version : ℕ) :
    ActiveRep (m.insertActive i version) (m.nextActive :: as) (⟨i, version⟩ :: nodes) := by
  have hne : ∀ a ∈ as, a ≠ m.nextActive := fun a ha => (h.live a ha).1.ne
  refine ⟨⟨rfl, ?_⟩, ?_, ?_, ?_⟩
  · simp only [Memory.insertActive, Memory.setActiveList, Memory.setActiveLink, Function.update_self]
    refine Segment.congr h.chain fun a ha => ?_
    simp [Memory.newActive, hne a ha]
  · rw [List.map_cons, ← h.nodes]
    congr 1
    · simp [Memory.activeNode, Memory.insertActive, Memory.setActiveList, Memory.setActiveLink,
        Memory.newActive]
    · refine List.map_congr_left fun a ha => ?_
      simp [Memory.activeNode, Memory.insertActive, Memory.setActiveList, Memory.setActiveLink,
        Memory.newActive, hne a ha]
  · exact List.nodup_cons.mpr ⟨fun hmem => (hne _ hmem) rfl, h.nodup⟩
  · intro a ha
    rcases List.mem_cons.mp ha with rfl | ha
    · exact ⟨Nat.lt_succ_self _, hfresh⟩
    · exact ⟨Nat.lt_succ_of_lt (h.live a ha).1, (h.live a ha).2⟩

/-- The search of `DeleteGlobalActiveList` stops at the first node of the thread. -/
theorem deleteGlobalActiveList_append {before after : List (ActiveNode n)} {node : ActiveNode n}
    (hbefore : ∀ other ∈ before, other.indexThread ≠ i) (hnode : node.indexThread = i) :
    deleteGlobalActiveList i (before ++ node :: after) = before ++ after := by
  induction before with
  | nil => simp [deleteGlobalActiveList, hnode]
  | cons other before ih =>
    have hother := hbefore other List.mem_cons_self
    simp [deleteGlobalActiveList, hother,
      ih fun other hmem => hbefore other (List.mem_cons_of_mem _ hmem)]

theorem deleteGlobalActiveList_of_not (hnot : ∀ node ∈ nodes, node.indexThread ≠ i) :
    deleteGlobalActiveList i nodes = nodes := by
  induction nodes with
  | nil => rfl
  | cons node nodes ih =>
    simp [deleteGlobalActiveList, hnot node List.mem_cons_self,
      ih fun other hmem => hnot other (List.mem_cons_of_mem _ hmem)]

/-- The list after a node was left out of it and freed. -/
theorem ActiveRep.removed {m' : Memory n} (h : ActiveRep m (xs ++ a :: ys) nodes)
    (hbefore : ∀ c ∈ xs, (m.active c).indexThread ≠ i) (ha : (m.active a).indexThread = i)
    (hchain : Chain (fun c => (m'.active c).link) m'.activeList (xs ++ ys))
    (hnode : ∀ c, m'.activeNode c = m.activeNode c) (hnext : m'.nextActive = m.nextActive)
    (hfreed : ∀ c, c ≠ a → m'.activeFreed c = m.activeFreed c) :
    ActiveRep m' (xs ++ ys) (deleteGlobalActiveList i nodes) := by
  obtain ⟨hnot, hnodup⟩ := List.nodup_cons.mp (List.nodup_middle.mp h.nodup)
  refine ⟨hchain, ?_, hnodup, fun c hc => ?_⟩
  · rw [List.map_congr_left fun c _ => hnode c, ← h.nodes]
    simp only [List.map_append, List.map_cons]
    refine (deleteGlobalActiveList_append (fun node hmem => ?_) ha).symm
    obtain ⟨c, hc, rfl⟩ := List.mem_map.mp hmem
    exact hbefore c hc
  · have hlive := h.live c (by
      rcases List.mem_append.mp hc with hc | hc
      · exact List.mem_append_left _ hc
      · exact List.mem_append_right _ (List.mem_cons_of_mem a hc))
    rw [Memory.ActiveLive, hnext, hfreed c fun heq => hnot (heq ▸ hc)]
    exact hlive

theorem Memory.activeNode_setActiveLink (m : Memory n) (b : Addr) (link : Option Addr) (c : Addr) :
    (m.setActiveLink b link).activeNode c = m.activeNode c := by
  by_cases heq : c = b
  · subst heq
    simp [Memory.activeNode, Memory.setActiveLink]
  · simp [Memory.activeNode, Memory.setActiveLink, heq]

/-- Unlinking a node from the one before it. -/
theorem ActiveRep.unlink (h : ActiveRep m (xs ++ b :: a :: ys) nodes)
    (hbefore : ∀ c ∈ xs ++ [b], (m.active c).indexThread ≠ i) (ha : (m.active a).indexThread = i) :
    ActiveRep ((m.setActiveLink b (m.active a).link).freeActive a) (xs ++ b :: ys)
      (deleteGlobalActiveList i nodes) := by
  have hchain : Chain (fun c => (((m.setActiveLink b (m.active a).link).freeActive a).active c).link)
      m.activeList (xs ++ b :: ys) := by
    refine Chain.unlink h.chain h.nodup ?_ fun c hne => ?_
    · simp [Memory.setActiveLink, Memory.freeActive]
    · simp [Memory.setActiveLink, Memory.freeActive, hne]
  rw [List.append_cons] at h hchain ⊢
  refine h.removed hbefore ha hchain (m.activeNode_setActiveLink b _) rfl fun c hne => ?_
  simp [Memory.setActiveLink, Memory.freeActive, hne]

/-- Moving the head past the first node. -/
theorem ActiveRep.unlinkHead (h : ActiveRep m (a :: ys) nodes)
    (ha : (m.active a).indexThread = i) :
    ActiveRep ((m.setActiveList (m.active a).link).freeActive a) ys
      (deleteGlobalActiveList i nodes) := by
  have hnone : ∀ c ∈ ([] : List Addr), (m.active c).indexThread ≠ i := by simp
  refine ActiveRep.removed h hnone ha h.chain.2 (fun _ => rfl) rfl fun c hne => ?_
  simp [Memory.setActiveList, Memory.freeActive, hne]

end Active

/-! ### The queues -/

section Operations

variable {V : Type} {q : Queue V}

theorem Queue.WellFormed.versions_removeFront (h : q.WellFormed) :
    q.removeFront.versions = q.versions.tail := by
  unfold Queue.removeFront
  split
  · have hnil : q.front = [] := List.eq_nil_of_length_eq_zero (h.count_eq ▸ ‹q.count = 0›)
    simp [Queue.versions, hnil]
  · simp [Queue.versions, List.map_tail]

theorem Queue.removeFront_minimum (q : Queue V) :
    q.removeFront.minimum = q.minimum ∧ q.removeFront.deleteFront = q.deleteFront := by
  unfold Queue.removeFront
  split <;> exact ⟨rfl, rfl⟩

variable [DecidableEq V]

theorem Queue.removeVersion_minimum (q : Queue V) (version : V) :
    (q.removeVersion version).minimum = q.minimum ∧
      (q.removeVersion version).deleteFront = q.deleteFront := by
  unfold Queue.removeVersion
  split
  · exact ⟨rfl, rfl⟩
  · exact Queue.removeVersionLoop_minimum q version [] q.front

theorem Queue.removeVersion_of_not_mem {version : V} (hnot : version ∉ q.versions) :
    q.removeVersion version = q := by
  have hnodes : ∀ node ∈ q.front, node.version ≠ version := fun node hnode heq =>
    hnot (List.mem_map.mpr ⟨node, hnode, heq⟩)
  rw [Queue.removeVersion, Queue.removeVersionLoop_not_mem hnodes, ite_self]

/-- An entry behind the front is taken out by `RemoveVersion`. -/
theorem Queue.unregister_eq_removeVersion {version other : V} (hhead : q.versions.head? = some other)
    (hne : other ≠ version) : q.unregister version = q.removeVersion version := by
  rw [Queue.unregister]
  rcases hfront : q.front with _ | ⟨node, nodes⟩
  · simp [Queue.versions, hfront] at hhead
  · have hnode : node.version = other := by simpa [Queue.versions, hfront] using hhead
    simp [hnode, hne]

end Operations

section Queues

variable {m m' : Memory n} {h : QueueHead} {as as' xs ys : List Addr} {vs : List ℤ} {a b : Addr}
  {p : Fin n} {qs : Fin n → List Addr} {queue : Fin n → Queue ℤ} {q' : Queue ℤ}

/-- A queue depends on its own nodes. -/
theorem QueueRep.congr (hrep : QueueRep m h as vs)
    (hcells : ∀ a ∈ as, m'.node a = m.node a ∧ m'.nodeFreed a = m.nodeFreed a)
    (hnext : m.nextNode ≤ m'.nextNode) : QueueRep m' h as vs := by
  refine ⟨?_, ?_, hrep.count, hrep.rear, hrep.nodup, fun a ha => ?_⟩
  · exact Segment.congr hrep.chain fun a ha => by rw [(hcells a ha).1]
  · rw [← hrep.versions]
    exact List.map_congr_left fun a ha => by rw [(hcells a ha).1]
  · rw [Memory.NodeLive, (hcells a ha).2]
    exact ⟨(hrep.live a ha).1.trans_le hnext, (hrep.live a ha).2⟩

/-- What is done to the nodes of one queue leaves the others as they are. -/
theorem QueuesRep.replace (hrep : QueuesRep m qs queue)
    (hqueue : ∀ r, r ≠ p → m'.queue r = m.queue r)
    (hcells : ∀ r, r ≠ p → ∀ a ∈ qs r, m'.node a = m.node a ∧ m'.nodeFreed a = m.nodeFreed a)
    (hnext : m.nextNode ≤ m'.nextNode) (hp : QueueRep m' (m'.queue p) as' q'.versions)
    (hwell : q'.WellFormed) (hmin : (m'.queue p).minimum = q'.minimum)
    (hdelete : (m'.queue p).deleteFront = q'.deleteFront)
    (hapart : ∀ a ∈ as', ∀ r, r ≠ p → a ∉ qs r) :
    QueuesRep m' (Function.update qs p as') (Function.update queue p q') := by
  have hother : ∀ r, r ≠ p → QueueRep m' (m'.queue r) (qs r) (queue r).versions := fun r hne => by
    rw [hqueue r hne]
    exact (hrep.rep r).congr (hcells r hne) hnext
  refine ⟨fun r => ?_, fun r => ?_, fun r => ?_, fun r => ?_, fun r r' a ha ha' => ?_⟩
  · by_cases hne : r = p
    · subst hne
      simpa using hp
    · simpa [hne] using hother r hne
  · by_cases hne : r = p
    · subst hne
      simpa using hwell
    · simpa [hne] using hrep.wellFormed r
  · by_cases hne : r = p
    · subst hne
      simpa using hmin
    · simpa [hne, hqueue r hne] using hrep.minimum r
  · by_cases hne : r = p
    · subst hne
      simpa using hdelete
    · simpa [hne, hqueue r hne] using hrep.deleteFront r
  · by_cases hr : r = p <;> by_cases hr' : r' = p
    · rw [hr, hr']
    · subst hr
      simp only [Function.update_self, Function.update_of_ne hr'] at ha ha'
      exact absurd ha' (hapart a ha r' hr')
    · subst hr'
      simp only [Function.update_self, Function.update_of_ne hr] at ha ha'
      exact absurd ha (hapart a ha' r hr)
    · simp only [Function.update_of_ne hr, Function.update_of_ne hr'] at ha ha'
      exact hrep.apart r r' a ha ha'

theorem QueueRep.eq_nil_iff (hrep : QueueRep m h as vs) : h.count = 0 ↔ as = [] := by
  rw [hrep.count, List.length_eq_zero_iff, ← hrep.versions, List.map_eq_nil_iff]

/-- `AddRear` on an empty queue. -/
theorem QueuesRep.append_nil (hrep : QueuesRep m qs queue)
    (hfresh : m.nodeFreed m.nextNode = false) (v : ℤ) (hcount : (m.queue p).count = 0) :
    QueuesRep ((((m.newNode v).setFront p (some m.nextNode)).setRear p (some m.nextNode)).setCount p
        ((m.queue p).count + 1))
      (Function.update qs p [m.nextNode]) (Function.update queue p ((queue p).addRear v)) := by
  have hnil := (hrep.rep p).eq_nil_iff.mp hcount
  have hvs : (queue p).versions = [] := by rw [← (hrep.rep p).versions, hnil, List.map_nil]
  have hwell := hrep.wellFormed p
  have hminimum := Queue.addRear_minimum (queue p) v
  refine hrep.replace (fun r hne => ?_) (fun r hne a ha => ?_) (Nat.le_succ _) ?_ (hwell.addRear v)
    ?_ ?_ fun a ha r _ hmem => ?_
  · simp [Memory.setQueue, Memory.newNode, hne]
  · have hlt := ((hrep.rep r).live a ha).1.ne
    simp [Memory.setQueue, Memory.newNode, hlt]
  · rw [hwell.versions_addRear, hvs, List.nil_append]
    refine ⟨⟨?_, ?_⟩, ?_, ?_, fun _ => ?_, List.nodup_singleton _, fun a ha => ?_⟩
    all_goals simp_all [Segment, Memory.NodeLive, Memory.setQueue, Memory.newNode]
  · simpa [Memory.setQueue, Memory.newNode,
      hminimum.1] using hrep.minimum p
  · simpa [Memory.setQueue, Memory.newNode,
      hminimum.2] using hrep.deleteFront p
  · rw [List.mem_singleton.mp ha] at hmem
    exact absurd ((hrep.rep r).live _ hmem).1 (Nat.lt_irrefl _)

/-- A queue with one more node behind its last one. -/
theorem QueueRep.append {h' : QueueHead} {rear : Addr} {v : ℤ} (hrep : QueueRep m h (xs ++ [rear]) vs)
    (hfront : h'.front = h.front) (hcount : h'.count = h.count + 1) (hrear : h'.rear = some a)
    (ha : m'.node a = ⟨v, none⟩) (hfresh : a ∉ xs ++ [rear])
    (hlink : m'.node rear = { m.node rear with link := some a })
    (hsame : ∀ c ∈ xs, m'.node c = m.node c)
    (hlive : ∀ c ∈ xs ++ [rear] ++ [a], c < m'.nextNode ∧ m'.nodeFreed c = false) :
    QueueRep m' h' (xs ++ [rear] ++ [a]) (vs ++ [v]) := by
  refine ⟨?_, ?_, ?_, fun _ => ?_, ?_, hlive⟩
  · rw [hfront]
    refine Chain.extend hrep.chain (by simp [hlink]) (by simp [ha]) fun c hc => by rw [hsame c hc]
  · rw [← hrep.versions]
    simp only [List.map_append, List.map_cons, List.map_nil, hlink, ha]
    rw [List.map_congr_left fun c hc => by rw [hsame c hc]]
  · rw [hcount, hrep.count, List.length_append, List.length_singleton]
  · rw [hrear, List.getLast?_concat]
  · refine List.nodup_append.mpr ⟨hrep.nodup, List.nodup_singleton a, fun c hc d hd => ?_⟩
    rw [List.mem_singleton.mp hd]
    exact fun heq => hfresh (heq ▸ hc)

/-- `AddRear` behind the last node. -/
theorem QueuesRep.append_cons (hrep : QueuesRep m qs queue)
    (hfresh : m.nodeFreed m.nextNode = false) (v : ℤ) (hcount : (m.queue p).count ≠ 0) :
    ∃ rear, (m.queue p).rear = some rear ∧ m.NodeLive rear ∧
      QueuesRep ((((m.newNode v).setNodeLink rear (some m.nextNode)).setRear p (some m.nextNode)).setCount
          p ((m.queue p).count + 1))
        (Function.update qs p (qs p ++ [m.nextNode])) (Function.update queue p ((queue p).addRear v)) := by
  have hrepP := hrep.rep p
  have hne : qs p ≠ [] := fun hnil => hcount (hrepP.eq_nil_iff.mpr hnil)
  obtain ⟨xs, rear, hxs⟩ : ∃ xs rear, qs p = xs ++ [rear] :=
    ⟨_, _, (List.dropLast_append_getLast hne).symm⟩
  have hrear : (m.queue p).rear = some rear := by rw [hrepP.rear hne, hxs, List.getLast?_concat]
  have hlt : ∀ r, ∀ a ∈ qs r, a ≠ m.nextNode := fun r a ha => ((hrep.rep r).live a ha).1.ne
  have hmem : rear ∈ qs p := by simp [hxs]
  have hwell := hrep.wellFormed p
  have hminimum := Queue.addRear_minimum (queue p) v
  refine ⟨rear, hrear, hrepP.live rear hmem, hrep.replace (fun r hne => ?_) (fun r hne a ha => ?_)
    (Nat.le_succ _) ?_ (hwell.addRear v) ?_ ?_ fun a ha r hr hmem' => ?_⟩
  · simp [Memory.setQueue, Memory.newNode, Memory.setNodeLink, hne]
  · have hother : a ≠ rear := fun heq => hne (hrep.apart r p a ha (heq ▸ hmem))
    simp [Memory.setQueue, Memory.newNode, Memory.setNodeLink, hlt r a ha, hother]
  · rw [hwell.versions_addRear, hxs]
    rw [hxs] at hrepP
    have hltP : ∀ a ∈ xs ++ [rear], a ≠ m.nextNode := fun a ha => (hrepP.live a ha).1.ne
    have hrearNe : m.nextNode ≠ rear := (hltP rear (by simp)).symm
    refine hrepP.append ?_ ?_ ?_ ?_ (fun ha => hltP _ ha rfl) ?_ (fun c hc => ?_) fun c hc => ?_
    · simp [Memory.setQueue, Memory.newNode, Memory.setNodeLink]
    · simp [Memory.setQueue, Memory.newNode, Memory.setNodeLink]
    · simp [Memory.setQueue, Memory.newNode, Memory.setNodeLink]
    · simp [Memory.setQueue, Memory.newNode, Memory.setNodeLink, hrearNe]
    · simp [Memory.setQueue, Memory.newNode, Memory.setNodeLink, hrearNe.symm]
    · have hother : c ≠ rear := fun heq => by
        have hnodup := (List.nodup_append.mp hrepP.nodup).2.2 c hc rear (by simp)
        exact hnodup heq
      simp [Memory.setQueue, Memory.newNode, Memory.setNodeLink, hother, hltP c (by simp [hc])]
    · rcases List.mem_append.mp hc with hc | hc
      · exact ⟨Nat.lt_succ_of_lt (hrepP.live c hc).1, (hrepP.live c hc).2⟩
      · rw [List.mem_singleton.mp hc]
        exact ⟨Nat.lt_succ_self _, hfresh⟩
  · simpa [Memory.setQueue, Memory.newNode, Memory.setNodeLink, hminimum.1] using hrep.minimum p
  · simpa [Memory.setQueue, Memory.newNode, Memory.setNodeLink, hminimum.2] using hrep.deleteFront p
  · rcases List.mem_append.mp ha with ha | ha
    · exact hr (hrep.apart r p a hmem' ha)
    · exact hlt r a hmem' (List.mem_singleton.mp ha)

/-- A queue with one node left out. -/
theorem QueueRep.removed {h' : QueueHead} (hrep : QueueRep m h (xs ++ a :: ys) vs)
    (hchain : Chain (fun c => (m'.node c).link) h'.front (xs ++ ys))
    (hversion : ∀ c, (m'.node c).version = (m.node c).version) (hcount : h'.count = h.count - 1)
    (hrear : xs ++ ys ≠ [] → h'.rear = (xs ++ ys).getLast?) (hnext : m'.nextNode = m.nextNode)
    (hfreed : ∀ c, c ≠ a → m'.nodeFreed c = m.nodeFreed c) :
    QueueRep m' h' (xs ++ ys) ((xs ++ ys).map fun c => (m.node c).version) := by
  obtain ⟨hnot, hnodup⟩ := List.nodup_cons.mp (List.nodup_middle.mp hrep.nodup)
  refine ⟨hchain, List.map_congr_left fun c _ => hversion c, ?_, hrear, hnodup, fun c hc => ?_⟩
  · rw [hcount, hrep.count, ← hrep.versions]
    simp
  · have hmem : c ∈ xs ++ a :: ys := by
      rcases List.mem_append.mp hc with hc | hc
      · exact List.mem_append_left _ hc
      · exact List.mem_append_right _ (List.mem_cons_of_mem a hc)
    rw [Memory.NodeLive, hnext, hfreed c fun heq => hnot (heq ▸ hc)]
    exact hrep.live c hmem

/-- `RemoveFront` -/
theorem QueuesRep.pop (hrep : QueuesRep m qs queue) (hqs : qs p = a :: as) :
    QueuesRep (((m.setFront p (m.node a).link).freeNode a).setCount p ((m.queue p).count - 1))
      (Function.update qs p as) (Function.update queue p (queue p).removeFront) := by
  have hrepP := hrep.rep p
  rw [hqs] at hrepP
  have hwell := hrep.wellFormed p
  have hversions : (as.map fun c => (m.node c).version) = (queue p).removeFront.versions := by
    rw [hwell.versions_removeFront, ← hrepP.versions, List.map_cons, List.tail_cons]
  refine hrep.replace (fun r hne => ?_) (fun r hne c hc => ?_) le_rfl ?_ hwell.removeFront ?_ ?_
    fun c hc r hr hmem => ?_
  · simp [Memory.setQueue, Memory.freeNode, hne]
  · have hother : c ≠ a := fun heq => hne (hrep.apart r p c hc (by simp [hqs, heq]))
    simp [Memory.setQueue, Memory.freeNode, hother]
  · rw [← hversions]
    have hchain : Chain (fun c => (m.node c).link) (m.node a).link as := hrepP.chain.2
    refine @QueueRep.removed n m _ _ [] as _ a _ hrepP ?_ (fun c => rfl) ?_ (fun hne => ?_) rfl fun c hne => ?_
    · simpa [Memory.setQueue, Memory.freeNode] using hchain
    · simp [Memory.setQueue, Memory.freeNode]
    · have hrear := hrepP.rear (by simp)
      rw [List.nil_append] at hne
      rw [List.getLast?_cons_of_ne_nil hne] at hrear
      simpa [Memory.setQueue, Memory.freeNode] using hrear
    · simp [Memory.setQueue, Memory.freeNode, hne]
  · simpa [Memory.setQueue, Memory.freeNode, (queue p).removeFront_minimum] using hrep.minimum p
  · simpa [Memory.setQueue, Memory.freeNode, (queue p).removeFront_minimum] using hrep.deleteFront p
  · exact hr (hrep.apart r p c hmem (by simp [hqs, hc]))

/-- `RemoveVersion`, at a node that has another one before it. -/
theorem QueuesRep.remove {v : ℤ} {rear : Option Addr} (hrep : QueuesRep m qs queue)
    (hqs : qs p = xs ++ b :: a :: ys) (hbefore : ∀ c ∈ xs ++ [b], (m.node c).version ≠ v)
    (ha : (m.node a).version = v)
    (hrear : rear = if (m.node a).link = none then some b else (m.queue p).rear) :
    QueuesRep ((((m.setNodeLink b (m.node a).link).freeNode a).setRear p rear).setCount p
        ((m.queue p).count - 1))
      (Function.update qs p (xs ++ b :: ys)) (Function.update queue p ((queue p).removeVersion v)) := by
  have hrepP := hrep.rep p
  rw [hqs] at hrepP
  have hwell := hrep.wellFormed p
  have hminimum := (queue p).removeVersion_minimum v
  have hmem : ∀ c ∈ xs ++ b :: ys, c ∈ xs ++ b :: a :: ys :=
    (((List.sublist_cons_self a ys).cons_cons b).append_left xs).subset
  have hnode : ∀ c, ((m.setNodeLink b (m.node a).link).node c).version = (m.node c).version := by
    intro c
    by_cases heq : c = b
    · subst heq
      simp [Memory.setNodeLink]
    · simp [Memory.setNodeLink, heq]
  have hversions : ((xs ++ b :: ys).map fun c => (m.node c).version) =
      ((queue p).removeVersion v).versions := by
    have hsplit : (queue p).versions = (xs ++ [b]).map (fun c => (m.node c).version) ++
        v :: ys.map fun c => (m.node c).version := by
      rw [← hrepP.versions]
      simp [ha]
    rw [(hwell.removeVersion v).2, hsplit, List.erase_append_right, List.erase_cons_head]
    · simp
    · intro hv
      obtain ⟨c, hc, heq⟩ := List.mem_map.mp hv
      exact hbefore c hc heq
  refine hrep.replace (fun r hne => ?_) (fun r hne c hc => ?_) le_rfl ?_ (hwell.removeVersion v).1 ?_ ?_
    fun c hc r hr hmem' => ?_
  · simp [Memory.setQueue, Memory.freeNode, Memory.setNodeLink, hne]
  · have hother : c ≠ a := fun heq => hne (hrep.apart r p c hc (by simp [hqs, heq]))
    have hother' : c ≠ b := fun heq => hne (hrep.apart r p c hc (by simp [hqs, heq]))
    simp [Memory.setQueue, Memory.freeNode, Memory.setNodeLink, hother, hother']
  · rw [← hversions]
    have hchain : Chain (fun c => ((m.setNodeLink b (m.node a).link).node c).link) (m.queue p).front
        (xs ++ b :: ys) := by
      refine Chain.unlink hrepP.chain hrepP.nodup ?_ fun c hne => ?_
      · simp [Memory.setNodeLink]
      · simp [Memory.setNodeLink, hne]
    have hlast : rear = (xs ++ b :: ys).getLast? := by
      have hrest : Chain (fun c => (m.node c).link) (m.node a).link ys := by
        have hwhole := hrepP.chain
        rw [List.append_cons] at hwhole
        obtain ⟨_, -, -, hrest⟩ := segment_append.mp hwhole
        exact hrest
      rw [hrear, hrepP.rear (by simp)]
      cases ys with
      | nil => simp [hrest.eq_none_iff]
      | cons c ys => simp [hrest.eq_none_iff, List.getLast?_append]
    rw [List.append_cons] at hrepP hchain hlast ⊢
    refine hrepP.removed ?_ hnode ?_ (fun _ => ?_) rfl fun c hne => ?_
    · simpa [Memory.setQueue, Memory.freeNode, Memory.setNodeLink] using hchain
    · simp [Memory.setQueue, Memory.freeNode, Memory.setNodeLink]
    · simpa [Memory.setQueue, Memory.freeNode] using hlast
    · simp [Memory.setQueue, Memory.freeNode, Memory.setNodeLink, hne]
  · simpa [Memory.setQueue, Memory.freeNode, Memory.setNodeLink, hminimum.1] using hrep.minimum p
  · simpa [Memory.setQueue, Memory.freeNode, Memory.setNodeLink, hminimum.2] using hrep.deleteFront p
  · exact hr (hrep.apart r p c hmem' (hqs ▸ hmem c hc))

/-- What the second critical section does after `RemoveFront`: `minimum` moves, or not, and
`delete_front` is set. -/
theorem QueuesRep.settle {v minimum : ℤ} {rest : List ℤ}
    (hrep : QueuesRep m qs (Function.update queue p (queue p).removeFront))
    (hwell : (queue p).WellFormed) (hversions : (queue p).versions = v :: rest)
    (hminimum : minimum = (queue p).minimumAfter v rest) :
    QueuesRep (m.setQueue p { m.queue p with minimum := minimum, deleteFront := v }) qs
      (Function.update queue p ((queue p).unregister v)) := by
  obtain ⟨hwell', hrest, hdelete, hmin⟩ := hwell.unregister_front hversions
  have hrepP := hrep.rep p
  rw [Function.update_self, hwell.versions_removeFront, hversions, List.tail_cons] at hrepP
  have hreplaced : QueuesRep (m.setQueue p { m.queue p with minimum := minimum, deleteFront := v })
      (Function.update qs p (qs p))
      (Function.update (Function.update queue p (queue p).removeFront) p ((queue p).unregister v)) := by
    refine hrep.replace (fun r hne => ?_) (fun r hne c hc => ⟨rfl, rfl⟩) le_rfl ?_ hwell' ?_ ?_
      fun c hc r hr hmem => hr (hrep.apart r p c hmem hc)
    · simp [Memory.setQueue, hne]
    · rw [hrest, Memory.setQueue_queue]
      exact ⟨hrepP.chain, hrepP.versions, hrepP.count, hrepP.rear, hrepP.nodup, hrepP.live⟩
    · rw [Memory.setQueue_queue, hmin, hminimum]
    · rw [Memory.setQueue_queue, hdelete]
  rwa [Function.update_eq_self, Function.update_idem] at hreplaced

end Queues

end Multicore.Mvcc
