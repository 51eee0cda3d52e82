import Mathlib.Data.List.Basic
import Mathlib.Data.List.Nodup
import Mathlib.Tactic.Ring

/-!
# The read-view queue of one thread

Every updater thread `p` owns a queue in which the threads reading `p` while it is active leave the
version they found it active with. The collector never looks at the entries; it reads `minimum`,
which the second critical section moves when the front entry changes.

The nodes are kept as the list that following `link` from `front` visits, each with its address, so
that the `rear` pointer is what it is in the program: an address, which may dangle once the last node
is gone. The operations do to `count`, `front` and `rear` what the source does, and `WellFormed`
says when they agree; on a well-formed queue the three operations are appending, dropping the front
and erasing the first entry of a version.

The version type is left open. The `int` parameter of `AddRear` is a conversion made by the caller.
-/

namespace Multicore.Mvcc

structure QueueNode (V : Type) where
  addr : ℕ
  version : V
  deriving DecidableEq, Repr

structure Queue (V : Type) where
  count : ℕ
  minimum : V
  deleteFront : V
  /-- The nodes reachable from the `front` pointer, in link order; `[]` is `NULL`. -/
  front : List (QueueNode V)
  rear : Option ℕ
  /-- The address the next `malloc` of a node returns. -/
  fresh : ℕ
  deriving Repr

namespace Queue

variable {V : Type}

/-- `CreateQueue`. The source leaves `minimum` and `delete_front` as `malloc` returns them; they are
taken to start at zero. -/
def createQueue [Zero V] : Queue V :=
  { count := 0, minimum := 0, deleteFront := 0, front := [], rear := none, fresh := 0 }

/-- The list after `rear->link = new_node`: whatever followed `rear` is no longer reachable, and
nothing changes for a reader starting at `front` when `rear` is not one of its nodes. -/
def linkAfter (rear : Option ℕ) (new : QueueNode V) : List (QueueNode V) → List (QueueNode V)
  | [] => []
  | node :: rest => if some node.addr = rear then [node, new] else node :: linkAfter rear new rest

def addRear (q : Queue V) (version : V) : Queue V :=
  let new : QueueNode V := ⟨q.fresh, version⟩
  if q.count = 0 then
    { q with front := [new], rear := some new.addr, count := q.count + 1, fresh := q.fresh + 1 }
  else
    { q with front := linkAfter q.rear new q.front, rear := some new.addr, count := q.count + 1
             fresh := q.fresh + 1 }

def removeFront (q : Queue V) : Queue V :=
  if q.count = 0 then q
  else { q with front := q.front.tail, count := q.count - 1 }

variable [DecidableEq V]

/-- The loop of `RemoveVersion`, with the nodes already passed; `back_node` is the last of them. -/
def removeVersionLoop (q : Queue V) (version : V) (passed : List (QueueNode V)) :
    List (QueueNode V) → Queue V
  | [] => q
  | current :: rest =>
    if current.version = version then
      match passed.getLast? with
      | some back =>
        { q with front := passed ++ rest, rear := if rest.isEmpty then some back.addr else q.rear
                 count := q.count - 1 }
      | none => { q with front := rest, count := q.count - 1 }
    else removeVersionLoop q version (passed ++ [current]) rest

def removeVersion (q : Queue V) (version : V) : Queue V :=
  if q.count = 0 then q else removeVersionLoop q version [] q.front

/-- What the second critical section does to the queue of the picked thread, for a reader that
registered `version`. The source dereferences `front` without a test, so the first case is the crash
that a registered reader never meets. -/
def unregister (q : Queue V) (version : V) : Queue V :=
  match q.front with
  | [] => q
  | node :: _ =>
    if node.version = version then
      let q' := q.removeFront
      let moved :=
        match q'.front with
        | next :: _ => if next.version ≠ version then { q' with minimum := version } else q'
        | [] => if q'.deleteFront ≠ version then { q' with minimum := q'.deleteFront } else q'
      { moved with deleteFront := version }
    else q.removeVersion version

/-! ### The queue as a list of versions -/

def versions (q : Queue V) : List V := q.front.map QueueNode.version

structure WellFormed (q : Queue V) : Prop where
  count_eq : q.count = q.front.length
  rear_eq : q.front ≠ [] → q.rear = q.front.getLast?.map QueueNode.addr
  nodup : (q.front.map QueueNode.addr).Nodup
  lt_fresh : ∀ node ∈ q.front, node.addr < q.fresh

omit [DecidableEq V] in
theorem wellFormed_createQueue [Zero V] : (createQueue : Queue V).WellFormed :=
  ⟨rfl, fun h => absurd rfl h, List.nodup_nil, by simp [createQueue]⟩

omit [DecidableEq V] in
theorem linkAfter_last {nodes : List (QueueNode V)} {new : QueueNode V} (hne : nodes ≠ [])
    (hnodup : (nodes.map QueueNode.addr).Nodup) :
    linkAfter (nodes.getLast?.map QueueNode.addr) new nodes = nodes ++ [new] := by
  induction nodes with
  | nil => exact absurd rfl hne
  | cons node rest ih =>
    rcases rest with _ | ⟨next, rest⟩
    · simp [linkAfter]
    · obtain ⟨last, hlast⟩ : ∃ last, (next :: rest).getLast? = some last :=
        ⟨_, List.getLast?_eq_some_getLast (by simp)⟩
      have hmem : last ∈ next :: rest := List.mem_of_getLast? hlast
      have haddr : node.addr ≠ last.addr := by
        intro heq
        have hnotin := (List.nodup_cons.mp hnodup).1
        exact hnotin (heq ▸ List.mem_map_of_mem hmem)
      have ih' := ih (by simp) (List.nodup_cons.mp hnodup).2
      rw [hlast] at ih'
      rw [List.getLast?_cons_cons, hlast, linkAfter]
      simp only [Option.map_some, Option.some.injEq, if_neg haddr] at ih' ⊢
      rw [ih', ← List.cons_append]

omit [DecidableEq V] in
theorem WellFormed.addRear_front {q : Queue V} (h : q.WellFormed) (version : V) :
    (q.addRear version).front = q.front ++ [⟨q.fresh, version⟩] := by
  by_cases hempty : q.front = []
  · have hcount : q.count = 0 := by rw [h.count_eq, hempty, List.length_nil]
    simp [addRear, hcount, hempty]
  · have hcount : q.count ≠ 0 := by
      rw [h.count_eq]
      exact fun hzero => hempty (List.eq_nil_of_length_eq_zero hzero)
    simp only [addRear, if_neg hcount]
    rw [h.rear_eq hempty, linkAfter_last hempty h.nodup]

omit [DecidableEq V] in
theorem WellFormed.versions_addRear {q : Queue V} (h : q.WellFormed) (version : V) :
    (q.addRear version).versions = q.versions ++ [version] := by
  simp [versions, h.addRear_front]

omit [DecidableEq V] in
theorem WellFormed.addRear {q : Queue V} (h : q.WellFormed) (version : V) :
    (q.addRear version).WellFormed := by
  have hfields : (q.addRear version).count = q.count + 1 ∧ (q.addRear version).rear = some q.fresh ∧
      (q.addRear version).fresh = q.fresh + 1 := by
    unfold Queue.addRear
    split <;> exact ⟨rfl, rfl, rfl⟩
  obtain ⟨hcount, hrear, hfresh⟩ := hfields
  refine ⟨?_, fun _ => ?_, ?_, ?_⟩
  · rw [hcount, h.addRear_front, List.length_append, h.count_eq, List.length_singleton]
  · rw [hrear, h.addRear_front, List.getLast?_concat]
    rfl
  · rw [h.addRear_front, List.map_append, List.nodup_append]
    refine ⟨h.nodup, by simp, ?_⟩
    intro addr haddr other hother
    obtain ⟨node, hnode, rfl⟩ := List.mem_map.mp haddr
    simp only [List.map_cons, List.map_nil, List.mem_singleton] at hother
    have := h.lt_fresh node hnode
    omega
  · intro node hnode
    rw [h.addRear_front, List.mem_append, List.mem_singleton] at hnode
    rw [hfresh]
    rcases hnode with hnode | rfl
    · exact Nat.lt_succ_of_lt (h.lt_fresh node hnode)
    · exact Nat.lt_succ_self _

omit [DecidableEq V] in
theorem WellFormed.removeFront {q : Queue V} (h : q.WellFormed) : q.removeFront.WellFormed := by
  by_cases hcount : q.count = 0
  · rwa [Queue.removeFront, if_pos hcount]
  · rw [Queue.removeFront, if_neg hcount]
    refine ⟨?_, ?_, ?_, fun node hnode => h.lt_fresh node (List.mem_of_mem_tail hnode)⟩
    · change q.count - 1 = q.front.tail.length
      rw [h.count_eq, List.length_tail]
    · intro htail
      change q.rear = q.front.tail.getLast?.map QueueNode.addr
      rcases hfront : q.front with _ | ⟨node, rest⟩
      · exact absurd (by simp [hfront]) htail
      · rw [h.rear_eq (by simp [hfront]), hfront]
        rcases rest with _ | ⟨next, rest⟩
        · exact absurd (by simp [hfront]) htail
        · rw [List.getLast?_cons_cons, List.tail_cons]
    · change (q.front.tail.map QueueNode.addr).Nodup
      rw [List.map_tail]
      exact h.nodup.tail

theorem removeVersionLoop_not_mem {q : Queue V} {version : V} {passed rest : List (QueueNode V)}
    (hnot : ∀ node ∈ rest, node.version ≠ version) :
    q.removeVersionLoop version passed rest = q := by
  induction rest generalizing passed with
  | nil => rfl
  | cons node rest ih =>
    rw [removeVersionLoop, if_neg (hnot node (by simp))]
    exact ih fun other hother => hnot other (by simp [hother])

/-- The loop stops at the first node of the version, unlinks it and moves `rear` when that node was
the last one. -/
theorem removeVersionLoop_found {q : Queue V} {version : V} {passed before after : List (QueueNode V)}
    {node : QueueNode V} (hnot : ∀ other ∈ before, other.version ≠ version)
    (hnode : node.version = version) :
    q.removeVersionLoop version passed (before ++ node :: after) =
      { q with front := passed ++ before ++ after
               rear := match (passed ++ before).getLast? with
                 | some back => if after.isEmpty then some back.addr else q.rear
                 | none => q.rear
               count := q.count - 1 } := by
  induction before generalizing passed with
  | nil =>
    rw [List.nil_append, removeVersionLoop, if_pos hnode, List.append_nil]
    cases hlast : passed.getLast? with
    | some back => rfl
    | none => simp [List.getLast?_eq_none_iff.mp hlast]
  | cons other before ih =>
    rw [List.cons_append, removeVersionLoop, if_neg (hnot other (by simp)),
      ih fun other' hother' => hnot other' (by simp [hother'])]
    simp only [List.append_assoc, List.singleton_append]

theorem WellFormed.removeVersion {q : Queue V} (h : q.WellFormed) (version : V) :
    (q.removeVersion version).WellFormed ∧
      (q.removeVersion version).versions = q.versions.erase version := by
  by_cases hcount : q.count = 0
  · have hempty : q.front = [] := List.eq_nil_of_length_eq_zero (h.count_eq ▸ hcount)
    rw [Queue.removeVersion, if_pos hcount]
    exact ⟨h, by simp [versions, hempty]⟩
  rw [Queue.removeVersion, if_neg hcount]
  by_cases hmem : version ∈ q.versions
  · obtain ⟨before, node, after, hfront, hnode, hnot⟩ :
        ∃ before node after, q.front = before ++ node :: after ∧ node.version = version ∧
          ∀ other ∈ before, other.version ≠ version := by
      obtain ⟨left, right, hsplit, hleft⟩ := List.eq_append_cons_of_mem hmem
      obtain ⟨before, rest, hfront, rfl, hrest⟩ := List.map_eq_append_iff.mp hsplit
      obtain ⟨node, after, rfl, hnode, rfl⟩ := List.map_eq_cons_iff.mp hrest
      exact ⟨before, node, after, hfront, hnode,
        fun other hother heq => hleft (heq ▸ List.mem_map_of_mem hother)⟩
    rw [hfront, removeVersionLoop_found hnot hnode, List.nil_append]
    have hnodup : ((before ++ node :: after).map QueueNode.addr).Nodup := hfront ▸ h.nodup
    refine ⟨⟨?_, ?_, ?_, ?_⟩, ?_⟩
    · change q.count - 1 = (before ++ after).length
      rw [h.count_eq, hfront]
      simp
    · intro hne
      change _ = (before ++ after).getLast?.map QueueNode.addr
      have hrear := h.rear_eq (by simp [hfront])
      rw [hfront] at hrear
      rcases after with _ | ⟨next, after⟩
      · rw [List.append_nil] at hne ⊢
        cases hlast : before.getLast? with
        | none => exact absurd (List.getLast?_eq_none_iff.mp hlast) hne
        | some back => simp
      · have hsame : (before ++ node :: next :: after).getLast? = (before ++ next :: after).getLast? := by
          rw [List.getLast?_append, List.getLast?_append, List.getLast?_cons_cons]
        rw [← hsame, ← hrear]
        cases before.getLast? <;> rfl
    · change ((before ++ after).map QueueNode.addr).Nodup
      exact hnodup.sublist (((List.sublist_cons_self node after).append_left before).map _)
    · intro other hother
      apply h.lt_fresh other
      rw [hfront]
      exact ((List.sublist_cons_self node after).append_left before).subset hother
    · change (before ++ after).map QueueNode.version = q.versions.erase version
      rw [versions, hfront, List.map_append, List.map_append, List.map_cons, hnode,
        List.erase_append_right]
      · rw [List.erase_cons_head]
      · intro hbefore
        obtain ⟨other, hother, heq⟩ := List.mem_map.mp hbefore
        exact hnot other hother heq
  · have hnot : ∀ node ∈ q.front, node.version ≠ version := fun node hnode heq =>
      hmem (List.mem_map.mpr ⟨node, hnode, heq⟩)
    rw [removeVersionLoop_not_mem hnot, List.erase_of_not_mem hmem]
    exact ⟨h, rfl⟩

/-- `minimum` after the front entry left and `rest` remained: it moves to the version left behind
when the new front has another one, and to the previous `delete_front` when the queue runs empty. -/
def minimumAfter (q : Queue V) (version : V) : List V → V
  | next :: _ => if next ≠ version then version else q.minimum
  | [] => if q.deleteFront ≠ version then q.deleteFront else q.minimum

/-- A reader whose version is at the front drops the front entry. -/
theorem WellFormed.unregister_front {q : Queue V} (h : q.WellFormed) {version : V} {rest : List V}
    (hversions : q.versions = version :: rest) :
    (q.unregister version).WellFormed ∧ (q.unregister version).versions = rest ∧
      (q.unregister version).deleteFront = version ∧
      (q.unregister version).minimum = q.minimumAfter version rest := by
  obtain ⟨node, nodes, hfront, hnode, hrest⟩ := List.map_eq_cons_iff.mp hversions
  have hcount : q.count ≠ 0 := by rw [h.count_eq, hfront]; simp
  have hremoved : q.removeFront = { q with front := nodes, count := q.count - 1 } := by
    simp [Queue.removeFront, hcount, hfront]
  have hwell := hremoved ▸ h.removeFront
  rw [Queue.unregister, hfront]
  simp only [hnode, if_true, hremoved]
  subst hrest
  rcases nodes with _ | ⟨next, nodes⟩
  · by_cases hdelete : q.deleteFront = version
    · simp only [hdelete, ne_eq, not_true, if_false, List.map_nil, minimumAfter]
      exact ⟨⟨hwell.1, hwell.2, hwell.3, hwell.4⟩, rfl, trivial, trivial⟩
    · simp only [hdelete, ne_eq, not_false_eq_true, if_true, List.map_nil, minimumAfter]
      exact ⟨⟨hwell.1, hwell.2, hwell.3, hwell.4⟩, rfl, trivial, trivial⟩
  · by_cases hnext : next.version = version
    · simp only [hnext, ne_eq, not_true, if_false, List.map_cons, minimumAfter]
      exact ⟨⟨hwell.1, hwell.2, hwell.3, hwell.4⟩, by simp [versions, hnext], trivial, trivial⟩
    · simp only [hnext, ne_eq, not_false_eq_true, if_true, List.map_cons, minimumAfter]
      exact ⟨⟨hwell.1, hwell.2, hwell.3, hwell.4⟩, rfl, trivial, trivial⟩

theorem removeVersionLoop_minimum (q : Queue V) (version : V)
    (passed rest : List (QueueNode V)) :
    (q.removeVersionLoop version passed rest).minimum = q.minimum ∧
      (q.removeVersionLoop version passed rest).deleteFront = q.deleteFront := by
  induction rest generalizing passed with
  | nil => exact ⟨rfl, rfl⟩
  | cons node rest ih =>
    rw [removeVersionLoop]
    split
    · split <;> exact ⟨rfl, rfl⟩
    · exact ih _

/-- A reader whose version is not at the front leaves `minimum` and `delete_front` alone. -/
theorem WellFormed.unregister_behind {q : Queue V} (h : q.WellFormed) {version : V}
    (hfront : q.versions.head? ≠ some version) :
    (q.unregister version).WellFormed ∧ (q.unregister version).versions = q.versions.erase version ∧
      (q.unregister version).deleteFront = q.deleteFront ∧
      (q.unregister version).minimum = q.minimum := by
  rw [Queue.unregister]
  rcases hnodes : q.front with _ | ⟨node, nodes⟩
  · exact ⟨h, by simp [versions, hnodes], rfl, rfl⟩
  · have hnode : node.version ≠ version := by simpa [versions, hnodes] using hfront
    simp only [if_neg hnode]
    obtain ⟨hwell, hversions⟩ := h.removeVersion version
    refine ⟨hwell, hversions, ?_, ?_⟩ <;> unfold Queue.removeVersion <;> split
    · rfl
    · exact (removeVersionLoop_minimum q version [] q.front).2
    · rfl
    · exact (removeVersionLoop_minimum q version [] q.front).1

/-- On the versions, either way of taking a registration back erases its first entry. -/
theorem WellFormed.unregister {q : Queue V} (h : q.WellFormed) (version : V) :
    (q.unregister version).WellFormed ∧ (q.unregister version).versions = q.versions.erase version := by
  by_cases hfront : q.versions.head? = some version
  · obtain ⟨rest, hversions⟩ := List.head?_eq_some_iff.mp hfront
    obtain ⟨hwell, hrest, -, -⟩ := h.unregister_front hversions
    rw [hrest, hversions, List.erase_cons_head]
    exact ⟨hwell, rfl⟩
  · obtain ⟨hwell, hversions, -, -⟩ := h.unregister_behind hfront
    exact ⟨hwell, hversions⟩

omit [DecidableEq V] in
theorem addRear_minimum (q : Queue V) (version : V) :
    (q.addRear version).minimum = q.minimum ∧ (q.addRear version).deleteFront = q.deleteFront := by
  unfold addRear
  split <;> exact ⟨rfl, rfl⟩

end Queue

end Multicore.Mvcc
