import Multicore.Mvcc.Enter
import Multicore.Mvcc.Represent

/-!
# An outline of the critical sections

For each statement of a section, `Outline` says what holds before it when no other thread is in a
section: how memory is related to the lists the section started from. Where only assignments are left to
do, the assertion is that doing them gives the lists the section ends with; the three loops have
invariants. Some statement of each section is the one at which the section takes effect: from there on the
assertion speaks of the lists after the section. For the second section this is where `minimum` is
written, or found not to change, since the collector reads it at any time.
-/

namespace Multicore.Mvcc

variable {n : ℕ}

namespace Protected

/-- After `InsertGlobalActiveList`. -/
def inserted (P : Protected n) (i : Fin n) : Protected n :=
  { P with
    atomicCounter := P.atomicCounter + 1
    activeList := insertGlobalActiveList P.activeList i (P.atomicCounter + 1) }

/-- The node of the picked thread in the capture. -/
def picked (P : Protected n) (i p : Fin n) : Option (ActiveNode n) :=
  findPicked (captureActiveList (P.inserted i).activeList) p

/-- After the first critical section. -/
def enter (P : Protected n) (i p : Fin n) : Protected n :=
  { P.inserted i with
    queue := match P.picked i p with
      | some node => Function.update P.queue p ((P.queue p).addRear (toInt node.version))
      | none => P.queue }

/-- After `DeleteGlobalActiveList`. -/
def deleted (P : Protected n) (i : Fin n) : Protected n :=
  { P with activeList := deleteGlobalActiveList i P.activeList }

/-- After `RemoveFront`. -/
def popped (P : Protected n) (i p : Fin n) : Protected n :=
  { P.deleted i with queue := Function.update P.queue p (P.queue p).removeFront }

/-- After the second critical section. -/
def leave (P : Protected n) (i : Fin n) (u : Updater n) : Protected n :=
  { P.deleted i with
    queue :=
      if u.isThreadActive then
        Function.update P.queue u.pickedThreadIndex
          ((P.queue u.pickedThreadIndex).unregister u.activeThreadVersion)
      else P.queue }

@[simp] theorem deleted_queue (P : Protected n) (i : Fin n) : (P.deleted i).queue = P.queue := rfl

end Protected

/-- The locals a thread takes out of the first section. -/
structure Took (P : Protected n) (i p : Fin n) (x : Section n) : Prop where
  version : x.version = P.atomicCounter + 1
  capture : x.capture = captureActiveList (P.inserted i).activeList
  found : x.found = P.picked i p

/-- What is to be said at each statement, the section having started from `P`, or having come to `P`
with its effect. -/
def Outline (i : Fin n) (P : Protected n) (m : Memory n) (x : Section n) (u : Updater n) : Prop :=
  let p := u.pickedThreadIndex
  let v : ℤ := u.activeThreadVersion
  match x.pc with
  | .out | .locking => True
  | .increment => Represents m P
  | .load => Represents m { P with atomicCounter := P.atomicCounter + 1 }
  | .fill =>
    x.version = P.atomicCounter + 1 ∧ Represents m { P with atomicCounter := P.atomicCounter + 1 }
  | .linkNode =>
    x.version = P.atomicCounter + 1 ∧ m.ActiveLive x.node ∧
      Represents ((m.setActiveLink x.node m.activeList).setActiveList (some x.node)) (P.inserted i)
  | .setHead =>
    x.version = P.atomicCounter + 1 ∧ Represents (m.setActiveList (some x.node)) (P.inserted i)
  | .captureInit => x.version = P.atomicCounter + 1 ∧ Represents m (P.inserted i)
  | .capture =>
    x.version = P.atomicCounter + 1 ∧ Represents m (P.inserted i) ∧
      ∃ xs ys, ActiveRep m (xs ++ ys) (P.inserted i).activeList ∧
        Chain (fun a => (m.active a).link) x.current ys ∧ x.capture = (xs.map m.activeNode).reverse
  | .captureNext =>
    x.version = P.atomicCounter + 1 ∧ Represents m (P.inserted i) ∧
      ∃ xs a ys, ActiveRep m (xs ++ a :: ys) (P.inserted i).activeList ∧ x.current = some a ∧
        Chain (fun a => (m.active a).link) (m.active a).link ys ∧
        x.capture = ((xs ++ [a]).map m.activeNode).reverse
  | .find =>
    x.version = P.atomicCounter + 1 ∧ Represents m (P.inserted i) ∧
      x.capture = captureActiveList (P.inserted i).activeList
  | .addNew => Took P i p x ∧ Represents m (P.inserted i) ∧ x.found.isSome = true
  | .addTest =>
    Took P i p x ∧
      if (m.queue p).count = 0 then
        Represents (((m.setFront p (some x.node)).setRear p (some x.node)).setCount p
          ((m.queue p).count + 1)) (P.enter i p)
      else ∃ rear, (m.queue p).rear = some rear ∧ m.NodeLive rear ∧
        Represents (((m.setNodeLink rear (some x.node)).setRear p (some x.node)).setCount p
          ((m.queue p).count + 1)) (P.enter i p)
  | .addFront =>
    Took P i p x ∧
      Represents (((m.setFront p (some x.node)).setRear p (some x.node)).setCount p
        ((m.queue p).count + 1)) (P.enter i p)
  | .addLink =>
    Took P i p x ∧ ∃ rear, (m.queue p).rear = some rear ∧ m.NodeLive rear ∧
      Represents (((m.setNodeLink rear (some x.node)).setRear p (some x.node)).setCount p
        ((m.queue p).count + 1)) (P.enter i p)
  | .addRear =>
    Took P i p x ∧
      Represents ((m.setRear p (some x.node)).setCount p ((m.queue p).count + 1)) (P.enter i p)
  | .addCount => Took P i p x ∧ Represents (m.setCount p ((m.queue p).count + 1)) (P.enter i p)
  | .deleteInit => Represents m P
  | .deleteTest =>
    Represents m P ∧ ∃ xs ys, ActiveRep m (xs ++ ys) P.activeList ∧
      Chain (fun a => (m.active a).link) x.current ys ∧ x.back = xs.getLast? ∧
      ∀ a ∈ xs, (m.active a).indexThread ≠ i
  | .deleteNext =>
    Represents m P ∧ ∃ xs a ys, ActiveRep m (xs ++ a :: ys) P.activeList ∧ x.current = some a ∧
      Chain (fun a => (m.active a).link) (m.active a).link ys ∧ x.back = some a ∧
      ∀ c ∈ xs ++ [a], (m.active c).indexThread ≠ i
  | .deleteLink =>
    ∃ b a, x.back = some b ∧ x.current = some a ∧ m.ActiveLive b ∧ m.ActiveLive a ∧
      Represents ((m.setActiveLink b (m.active a).link).freeActive a) (P.deleted i)
  | .deleteHead =>
    ∃ a, x.current = some a ∧ m.ActiveLive a ∧
      Represents ((m.setActiveList (m.active a).link).freeActive a) (P.deleted i)
  | .deleteFree => ∃ a, x.current = some a ∧ m.ActiveLive a ∧ Represents (m.freeActive a) (P.deleted i)
  | .frontTest => u.isThreadActive = true ∧ Represents m (P.deleted i)
  | .popTest | .popFront =>
    u.isThreadActive = true ∧ Represents m (P.deleted i) ∧ ∃ rest, (P.queue p).versions = v :: rest
  | .popFree =>
    u.isThreadActive = true ∧ (∃ rest, (P.queue p).versions = v :: rest) ∧
      ∃ a, x.current = some a ∧ m.NodeLive a ∧
        Represents ((m.freeNode a).setCount p ((m.queue p).count - 1)) (P.popped i p)
  | .popCount =>
    u.isThreadActive = true ∧ (∃ rest, (P.queue p).versions = v :: rest) ∧
      Represents (m.setCount p ((m.queue p).count - 1)) (P.popped i p)
  | .frontNull =>
    u.isThreadActive = true ∧ (∃ rest, (P.queue p).versions = v :: rest) ∧ Represents m (P.popped i p)
  | .frontDiffers =>
    u.isThreadActive = true ∧ (∃ w rest, (P.queue p).versions = v :: w :: rest) ∧
      Represents m (P.popped i p)
  | .setMinimum => Represents ((m.setMinimum p v).setDeleteFront p v) (P.leave i u)
  | .deleteFrontTest =>
    u.isThreadActive = true ∧ (P.queue p).versions = [v] ∧ Represents m (P.popped i p)
  | .setMinimumFront =>
    Represents ((m.setMinimum p (m.queue p).deleteFront).setDeleteFront p v) (P.leave i u)
  | .setDeleteFront => Represents (m.setDeleteFront p v) P
  | .removeTest | .removeInit =>
    u.isThreadActive = true ∧ Represents m (P.deleted i) ∧
      ∃ w, (P.queue p).versions.head? = some w ∧ w ≠ v
  | .removeStep =>
    u.isThreadActive = true ∧ Represents m (P.deleted i) ∧
      (∃ w, (P.queue p).versions.head? = some w ∧ w ≠ v) ∧
      ∃ qs xs ys, QueuesRep m qs P.queue ∧ qs p = xs ++ ys ∧
        Chain (fun a => (m.node a).link) x.current ys ∧ x.back = xs.getLast? ∧
        ∀ a ∈ xs, (m.node a).version ≠ v
  | .removeNext =>
    u.isThreadActive = true ∧ Represents m (P.deleted i) ∧
      (∃ w, (P.queue p).versions.head? = some w ∧ w ≠ v) ∧
      ∃ qs xs a ys, QueuesRep m qs P.queue ∧ qs p = xs ++ a :: ys ∧ x.current = some a ∧
        Chain (fun a => (m.node a).link) (m.node a).link ys ∧ x.back = some a ∧
        ∀ c ∈ xs ++ [a], (m.node c).version ≠ v
  | .removeLink =>
    ∃ b a, x.back = some b ∧ x.current = some a ∧ m.NodeLive b ∧ m.NodeLive a ∧ b ≠ a ∧
      Represents ((((m.setNodeLink b (m.node a).link).freeNode a).setRear p
        (if (m.node a).link = none then some b else (m.queue p).rear)).setCount p
        ((m.queue p).count - 1)) (P.leave i u)
  | .removeFree =>
    ∃ b a, x.back = some b ∧ x.current = some a ∧ m.NodeLive b ∧ m.NodeLive a ∧ b ≠ a ∧
      Represents (((m.freeNode a).setRear p
        (if (m.node b).link = none then some b else (m.queue p).rear)).setCount p
        ((m.queue p).count - 1)) (P.leave i u)
  | .removeRearTest =>
    ∃ b, x.back = some b ∧ m.NodeLive b ∧
      Represents ((m.setRear p (if (m.node b).link = none then some b else (m.queue p).rear)).setCount p
        ((m.queue p).count - 1)) (P.leave i u)
  | .removeRear =>
    Represents ((m.setRear p x.back).setCount p ((m.queue p).count - 1)) (P.leave i u)
  | .removeCount => Represents (m.setCount p ((m.queue p).count - 1)) (P.leave i u)
  -- The entry at the front was looked at before `RemoveVersion` was called.
  | .removeHead | .removeHeadCount | .removeHeadFree => False
  | .unlock => Represents m P

/-- Which section a thread is in is known from outside, until the section takes its effect. -/
def Placed (x : Section n) (u : Updater n) : Prop :=
  match x.pc with
  | .out | .setDeleteFront | .unlock => True
  | .locking => u.pc = .enter ∨ u.pc = .leave
  | .increment | .load | .fill | .linkNode | .setHead | .captureInit | .capture | .captureNext | .find
  | .addNew | .addTest | .addFront | .addLink | .addRear | .addCount => u.pc = .enter
  | .deleteInit | .deleteTest | .deleteNext | .deleteLink | .deleteHead | .deleteFree | .frontTest
  | .popTest | .popFront | .popFree | .popCount | .frontNull | .frontDiffers | .setMinimum
  | .deleteFrontTest | .setMinimumFront | .removeTest | .removeInit | .removeStep | .removeNext
  | .removeLink | .removeFree | .removeRearTest | .removeRear | .removeCount | .removeHead
  | .removeHeadCount | .removeHeadFree => u.pc = .leave

/-- What a statement comes to: the section goes on from the same lists, or it takes its effect. -/
inductive Outcome (i : Fin n) (P : Protected n) (u : Updater n) :
    Memory n → Section n → Updater n → Prop where
  | goOn {m : Memory n} {x : Section n} (houtline : Outline i P m x u) : Outcome i P u m x u
  | enter {m : Memory n} {x : Section n} (hpc : u.pc = .enter) (hunlock : x.pc = .unlock)
      (htook : Took P i u.pickedThreadIndex x)
      (hrep : Represents m (P.enter i u.pickedThreadIndex)) : Outcome i P u m x (entered x u)
  | leave {m : Memory n} {x : Section n} (hpc : u.pc = .leave)
      (houtline : Outline i (P.leave i u) m x (left u)) : Outcome i P u m x (left u)

/-- The statement has a result, and it is as the outline says. -/
def Safe (i : Fin n) (P : Protected n) (u : Updater n) :
    Option (Memory n × Section n × Updater n) → Prop
  | none => False
  | some r => Outcome i P u r.1 r.2.1 r.2.2

/-! ### The first critical section -/

section First

variable {i : Fin n} {P : Protected n} {m : Memory n} {x : Section n} {u : Updater n}

/-- `InsertGlobalActiveList`, from beginning to end. -/
theorem Represents.insertActive (h : Represents m { P with atomicCounter := P.atomicCounter + 1 }) :
    Represents (m.insertActive i m.atomicCounter) (P.inserted i) := by
  obtain ⟨as, has⟩ := h.active
  have hcounter : m.atomicCounter = P.atomicCounter + 1 := h.counter
  refine h.withActive h.counter ⟨m.nextActive :: as, ?_⟩ (fun a ha => h.freshActive a ?_) rfl rfl rfl rfl rfl
  · have hinserted := has.insert (i := i) (h.freshActive _ le_rfl) m.atomicCounter
    rw [hcounter] at hinserted ⊢
    exact hinserted
  · exact (Nat.le_succ _).trans ha

theorem Outline.insert (h : Outline i P m x u)
    (hpc : x.pc = .increment ∨ x.pc = .load ∨ x.pc = .fill ∨ x.pc = .linkNode ∨ x.pc = .setHead) :
    Safe i P u (statement i m x u) := by
  rcases hpc with hpc | hpc | hpc | hpc | hpc <;> simp only [Outline, hpc] at h <;>
    simp only [statement, hpc]
  · refine Outcome.goOn ?_
    obtain ⟨as, has⟩ := h.active
    exact h.withActive (congrArg (· + 1) h.counter) ⟨as, has.congr rfl rfl rfl rfl⟩ h.freshActive
      rfl rfl rfl rfl rfl
  · exact Outcome.goOn ⟨h.counter, h⟩
  · exact Outcome.goOn ⟨h.1, ⟨Nat.lt_succ_self _, h.2.freshActive _ le_rfl⟩, h.2.insertActive⟩
  · exact Outcome.goOn ⟨h.1, h.2.2⟩
  · exact Outcome.goOn h

/-- The capture is read off the active list node by node. -/
theorem Outline.capture (h : Outline i P m x u)
    (hpc : x.pc = .captureInit ∨ x.pc = .capture ∨ x.pc = .captureNext) :
    Safe i P u (statement i m x u) := by
  rcases hpc with hpc | hpc | hpc <;> simp only [Outline, hpc] at h <;> simp only [statement, hpc]
  · obtain ⟨hversion, hrep⟩ := h
    obtain ⟨as, has⟩ := hrep.active
    exact Outcome.goOn ⟨hversion, hrep, [], as, has, has.chain, rfl⟩
  · obtain ⟨hversion, hrep, xs, ys, has, hchain, hcapture⟩ := h
    cases ys with
    | nil =>
      have hnone : x.current = none := hchain.eq_none_iff.mpr rfl
      rw [hnone]
      refine Outcome.goOn ⟨hversion, hrep, ?_⟩
      rw [captureActiveList_eq, ← has.nodes, List.append_nil]
      exact hcapture
    | cons a ys =>
      have hsome : x.current = some a := hchain.1
      rw [hsome]
      refine Outcome.goOn ⟨hversion, hrep, xs, a, ys, has, rfl, hchain.2, ?_⟩
      simp [hcapture, Memory.activeNode]
  · obtain ⟨hversion, hrep, xs, a, ys, has, hsome, hchain, hcapture⟩ := h
    rw [hsome]
    refine Outcome.goOn ⟨hversion, hrep, xs ++ [a], ys, ?_, hchain, hcapture⟩
    rwa [← List.append_cons]

theorem Outline.find (h : Outline i P m x u) (hplaced : Placed x u) (hpc : x.pc = .find) :
    Safe i P u (statement i m x u) := by
  simp only [Outline, hpc] at h
  simp only [Placed, hpc] at hplaced
  obtain ⟨hversion, hrep, hcapture⟩ := h
  have hfind : findPicked x.capture u.pickedThreadIndex = P.picked i u.pickedThreadIndex := by
    rw [hcapture, Protected.picked]
  simp only [statement, hpc, hfind]
  cases hfound : P.picked i u.pickedThreadIndex with
  | some node => exact Outcome.goOn ⟨⟨hversion, hcapture, hfound.symm⟩, hrep, rfl⟩
  | none =>
    refine Outcome.enter hplaced rfl ⟨hversion, hcapture, hfound.symm⟩ ?_
    rwa [Protected.enter, hfound]

/-- `AddRear`, from its `malloc` on. -/
theorem Outline.addNew (h : Outline i P m x u) (hpc : x.pc = .addNew) :
    Safe i P u (statement i m x u) := by
  simp only [Outline, hpc] at h
  obtain ⟨htook, hrep, hsome⟩ := h
  obtain ⟨node, hnode⟩ := Option.isSome_iff_exists.mp hsome
  simp only [statement, hpc, hnode]
  refine Outcome.goOn ⟨⟨htook.version, htook.capture, hnode ▸ htook.found⟩, ?_⟩
  have hpicked : P.picked i u.pickedThreadIndex = some node := hnode ▸ htook.found.symm
  obtain ⟨qs, hqs⟩ := hrep.queue
  have hfresh := hrep.freshNode _ le_rfl
  have henter : (P.enter i u.pickedThreadIndex).queue = Function.update P.queue u.pickedThreadIndex
      ((P.queue u.pickedThreadIndex).addRear (toInt node.version)) := by
    simp [Protected.enter, hpicked]
  split
  case isTrue hcount =>
    refine hrep.withQueues ⟨_, henter ▸ hqs.append_nil hfresh _ hcount⟩ (fun a ha => hrep.freshNode a ?_)
      ⟨rfl, rfl⟩ rfl rfl rfl rfl rfl
    exact (Nat.le_succ _).trans ha
  case isFalse hcount =>
    obtain ⟨rear, hrear, hlive, happended⟩ := hqs.append_cons hfresh (toInt node.version) hcount
    refine ⟨rear, hrear, ⟨Nat.lt_succ_of_lt hlive.1, hlive.2⟩, hrep.withQueues ⟨_, henter ▸ happended⟩ (fun a ha => hrep.freshNode a ?_)
      ⟨rfl, rfl⟩ rfl rfl rfl rfl rfl⟩
    exact (Nat.le_succ _).trans ha

theorem Outline.addRear (h : Outline i P m x u) (hplaced : Placed x u) (hpc : x.pc = .addTest ∨ x.pc = .addFront ∨
      x.pc = .addLink ∨ x.pc = .addRear ∨ x.pc = .addCount) :
    Safe i P u (statement i m x u) := by
  rcases hpc with hpc | hpc | hpc | hpc | hpc <;> simp only [Outline, hpc] at h <;>
    simp only [statement, hpc] <;> simp only [Placed, hpc] at hplaced
  · split
    case isTrue hcount =>
      rw [if_pos hcount] at h
      exact Outcome.goOn ⟨⟨h.1.version, h.1.capture, h.1.found⟩, h.2⟩
    case isFalse hcount =>
      rw [if_neg hcount] at h
      exact Outcome.goOn ⟨⟨h.1.version, h.1.capture, h.1.found⟩, h.2⟩
  · refine Outcome.goOn ⟨⟨h.1.version, h.1.capture, h.1.found⟩, ?_⟩
    simpa [Section.goto] using h.2
  · obtain ⟨htook, rear, hrear, -, hrep⟩ := h
    rw [hrear]
    exact Outcome.goOn ⟨⟨htook.version, htook.capture, htook.found⟩, hrep⟩
  · refine Outcome.goOn ⟨⟨h.1.version, h.1.capture, h.1.found⟩, ?_⟩
    simpa using h.2
  · exact Outcome.enter hplaced rfl ⟨h.1.version, h.1.capture, h.1.found⟩ h.2

end First

/-! ### The second critical section -/

section Second

variable {i : Fin n} {P : Protected n} {m : Memory n} {x : Section n} {u : Updater n}

/-- With the active list cleared of the thread, the section is over unless it has a queue to look at. -/
theorem safe_afterDelete (hrep : Represents m (P.deleted i)) (hpc : u.pc = .leave) :
    Safe i P u (some (afterDelete m x u)) := by
  unfold afterDelete
  split
  case isTrue hactive => exact Outcome.goOn ⟨hactive, hrep⟩
  case isFalse hactive =>
    refine Outcome.leave hpc ?_
    have hleave : P.leave i u = P.deleted i := by simp [Protected.leave, hactive, Protected.deleted]
    rw [hleave]
    exact hrep

/-- The thread's node is found: it is unlinked from the one before it, or the head moves on. -/
theorem Represents.foundActive {xs ys : List Addr} {a : Addr} (h : Represents m P)
    (has : ActiveRep m (xs ++ a :: ys) P.activeList) (ha : (m.active a).indexThread = i)
    (hbefore : ∀ c ∈ xs, (m.active c).indexThread ≠ i) (hback : x.back = xs.getLast?)
    (hsome : x.current = some a) :
    Outline i P m (x.goto (if x.back = none then .deleteHead else .deleteLink)) u := by
  have ha' := has.live a (by simp)
  have hfresh := freed_fresh h.freshActive ha'.1
  rcases List.eq_nil_or_concat xs with rfl | ⟨xs, b, rfl⟩
  · rw [List.getLast?_nil] at hback
    rw [if_pos hback]
    exact ⟨a, hsome, ha', h.withActive h.counter ⟨ys, has.unlinkHead ha⟩ hfresh rfl rfl rfl rfl rfl⟩
  · rw [List.concat_eq_append] at has hbefore hback
    rw [List.getLast?_concat] at hback
    rw [hback, if_neg (by simp)]
    rw [List.append_assoc] at has
    exact ⟨b, a, hback, hsome, has.live b (by simp), ha',
      h.withActive h.counter ⟨xs ++ b :: ys, has.unlink hbefore ha⟩ hfresh rfl rfl rfl rfl rfl⟩

/-- `DeleteGlobalActiveList` up to the node of the thread. -/
theorem Outline.deleteSearch (h : Outline i P m x u) (hplaced : Placed x u)
    (hpc : x.pc = .deleteInit ∨ x.pc = .deleteTest ∨ x.pc = .deleteNext) :
    Safe i P u (statement i m x u) := by
  rcases hpc with hpc | hpc | hpc <;> simp only [Outline, hpc] at h <;> simp only [statement, hpc] <;>
    simp only [Placed, hpc] at hplaced
  · obtain ⟨as, has⟩ := h.active
    exact Outcome.goOn ⟨h, [], as, has, has.chain, rfl, by simp⟩
  · obtain ⟨hrep, xs, ys, has, hchain, hback, hbefore⟩ := h
    cases ys with
    | nil =>
      have hnone : x.current = none := hchain.eq_none_iff.mpr rfl
      rw [hnone]
      refine safe_afterDelete ?_ hplaced
      have hsame : P.deleted i = P := by
        have hnot : deleteGlobalActiveList i P.activeList = P.activeList := by
          refine deleteGlobalActiveList_of_not fun node hnode => ?_
          rw [← has.nodes, List.append_nil] at hnode
          obtain ⟨a, ha, rfl⟩ := List.mem_map.mp hnode
          exact hbefore a ha
        rw [Protected.deleted, hnot]
      rwa [hsame]
    | cons a ys =>
      have hsome : x.current = some a := hchain.1
      rw [hsome]
      by_cases hindex : (m.active a).indexThread = i
      · simp only [if_pos hindex]
        exact Outcome.goOn (hrep.foundActive has hindex hbefore hback hsome)
      · simp only [if_neg hindex]
        refine Outcome.goOn ⟨hrep, xs, a, ys, has, rfl, hchain.2, rfl, fun c hc => ?_⟩
        rcases List.mem_append.mp hc with hc | hc
        · exact hbefore c hc
        · rwa [List.mem_singleton.mp hc]
  · obtain ⟨hrep, xs, a, ys, has, hsome, hchain, hback, hbefore⟩ := h
    rw [hsome]
    refine Outcome.goOn ⟨hrep, xs ++ [a], ys, ?_, hchain, ?_, hbefore⟩
    · rwa [← List.append_cons]
    · rw [List.getLast?_concat]
      exact hback

theorem Outline.delete (h : Outline i P m x u) (hplaced : Placed x u)
    (hpc : x.pc = .deleteLink ∨ x.pc = .deleteHead ∨ x.pc = .deleteFree) :
    Safe i P u (statement i m x u) := by
  rcases hpc with hpc | hpc | hpc <;> simp only [Outline, hpc] at h <;> simp only [statement, hpc] <;>
    simp only [Placed, hpc] at hplaced
  · obtain ⟨b, a, hback, hsome, -, ha, hrep⟩ := h
    rw [hback, hsome]
    exact Outcome.goOn ⟨a, hsome, ha, hrep⟩
  · obtain ⟨a, hsome, ha, hrep⟩ := h
    rw [hsome]
    exact Outcome.goOn ⟨a, hsome, ha, hrep⟩
  · obtain ⟨a, hsome, -, hrep⟩ := h
    rw [hsome]
    exact safe_afterDelete hrep hplaced

/-- The front of a queue in memory is its first entry. -/
theorem QueuesRep.front_eq {qs : Fin n → List Addr} {queue : Fin n → Queue ℤ} {p : Fin n} {w : ℤ}
    {rest : List ℤ} (hqs : QueuesRep m qs queue) (hversions : (queue p).versions = w :: rest) :
    ∃ a as, qs p = a :: as ∧ (m.queue p).front = some a ∧ (m.node a).version = w := by
  have hrepP := hqs.rep p
  rw [hversions] at hrepP
  obtain ⟨a, as, has, hw, -⟩ := List.map_eq_cons_iff.mp hrepP.versions
  have hchain := hrepP.chain
  rw [has] at hchain
  exact ⟨a, as, has, hchain.1, hw⟩

/-- The entry at the front decides which of the two functions is called. A reader that registered has an
entry, so there is one. -/
theorem Outline.frontTest (h : Outline i P m x u) (hpc : x.pc = .frontTest)
    (hqueue : (P.queue u.pickedThreadIndex).versions ≠ []) :
    Safe i P u (statement i m x u) := by
  simp only [Outline, hpc] at h
  obtain ⟨hactive, hrep⟩ := h
  obtain ⟨w, rest, hversions⟩ := List.exists_cons_of_ne_nil hqueue
  obtain ⟨qs, hqs⟩ := hrep.queue
  obtain ⟨a, as, -, hfront, hw⟩ := hqs.front_eq hversions
  simp only [statement, hpc, hfront, Option.map_some, hw]
  by_cases heq : w = u.activeThreadVersion
  · simp only [if_pos heq]
    exact Outcome.goOn ⟨hactive, hrep, rest, heq ▸ hversions⟩
  · simp only [if_neg heq]
    exact Outcome.goOn ⟨hactive, hrep, w, by rw [hversions, List.head?_cons], heq⟩

/-- `RemoveFront` -/
theorem Outline.pop (h : Outline i P m x u) (hpc : x.pc = .popTest ∨ x.pc = .popFront ∨
      x.pc = .popFree ∨ x.pc = .popCount) :
    Safe i P u (statement i m x u) := by
  rcases hpc with hpc | hpc | hpc | hpc <;> simp only [Outline, hpc] at h <;>
    simp only [statement, hpc]
  · obtain ⟨hactive, hrep, rest, hversions⟩ := h
    obtain ⟨qs, hqs⟩ := hrep.queue
    have hcount : (m.queue u.pickedThreadIndex).count ≠ 0 := by
      rw [(hqs.rep _).count, Protected.deleted, hversions]
      simp
    simp only [if_neg hcount]
    exact Outcome.goOn ⟨hactive, hrep, rest, hversions⟩
  · obtain ⟨hactive, hrep, rest, hversions⟩ := h
    obtain ⟨qs, hqs⟩ := hrep.queue
    obtain ⟨a, as, has, hfront, -⟩ := hqs.front_eq hversions
    rw [hfront, Option.map_some]
    have hlive := (hqs.rep u.pickedThreadIndex).live a (by simp [has])
    refine Outcome.goOn ⟨hactive, ⟨rest, hversions⟩, a, rfl, hlive, ?_⟩
    refine hrep.withQueues ⟨Function.update qs u.pickedThreadIndex as, ?_⟩
      (freed_fresh hrep.freshNode hlive.1) ⟨rfl, rfl⟩ rfl rfl rfl rfl rfl
    simpa [Protected.popped] using hqs.pop has
  · obtain ⟨hactive, hversions, a, hsome, -, hrep⟩ := h
    rw [hsome]
    exact Outcome.goOn ⟨hactive, hversions, hrep⟩
  · obtain ⟨hactive, hversions, hrep⟩ := h
    exact Outcome.goOn ⟨hactive, hversions, hrep⟩

/-- The lists after `RemoveFront` and the two assignments to the queue that follow it. -/
theorem Represents.settle {rest : List ℤ} (hrep : Represents m (P.popped i u.pickedThreadIndex))
    (minimum : ℤ) (hwell : (P.queue u.pickedThreadIndex).WellFormed)
    (hactive : u.isThreadActive = true)
    (hversions : (P.queue u.pickedThreadIndex).versions = (u.activeThreadVersion : ℤ) :: rest)
    (hminimum : minimum =
      (P.queue u.pickedThreadIndex).minimumAfter (u.activeThreadVersion : ℤ) rest) :
    Represents (m.setQueue u.pickedThreadIndex
        { m.queue u.pickedThreadIndex with minimum := minimum, deleteFront := u.activeThreadVersion })
      (P.leave i u) := by
  obtain ⟨qs, hqs⟩ := hrep.queue
  refine hrep.withQueues ⟨qs, ?_⟩ hrep.freshNode ⟨rfl, rfl⟩ rfl rfl rfl rfl rfl
  rw [Protected.leave, if_pos hactive]
  exact hqs.settle hwell hversions hminimum

/-- `RemoveFront` leaves `minimum` and `delete_front` alone. -/
theorem Represents.popped_minimum {p : Fin n} (hrep : Represents m (P.popped i p)) :
    (m.queue p).minimum = (P.queue p).minimum ∧ (m.queue p).deleteFront = (P.queue p).deleteFront := by
  obtain ⟨qs, hqs⟩ := hrep.queue
  have hminimum := hqs.minimum p
  have hdelete := hqs.deleteFront p
  simp only [Protected.popped, Function.update_self, (P.queue p).removeFront_minimum] at hminimum hdelete
  exact ⟨hminimum, hdelete⟩

/-- `minimum` and `delete_front`, after `RemoveFront`. -/
theorem Outline.frontChange (h : Outline i P m x u) (hplaced : Placed x u)
    (hwell : (P.queue u.pickedThreadIndex).WellFormed)
    (hpc : x.pc = .frontNull ∨ x.pc = .frontDiffers ∨ x.pc = .deleteFrontTest) :
    Safe i P u (statement i m x u) := by
  rcases hpc with hpc | hpc | hpc <;> simp only [Outline, hpc] at h <;> simp only [statement, hpc] <;>
    simp only [Placed, hpc] at hplaced
  · obtain ⟨hactive, ⟨rest, hversions⟩, hrep⟩ := h
    obtain ⟨qs, hqs⟩ := hrep.queue
    have hrepP := hqs.rep u.pickedThreadIndex
    have hrest : ((P.popped i u.pickedThreadIndex).queue u.pickedThreadIndex).versions = rest := by
      simp [Protected.popped, hwell.versions_removeFront, hversions]
    cases rest with
    | nil =>
      rw [hrest] at hrepP
      have hnone := hrepP.chain.eq_none_iff.mpr (List.map_eq_nil_iff.mp hrepP.versions)
      simp only [if_pos hnone]
      exact Outcome.goOn ⟨hactive, hversions, hrep⟩
    | cons w rest =>
      obtain ⟨a, as, -, hfront, -⟩ := hqs.front_eq hrest
      simp only [hfront, reduceCtorEq, if_false]
      exact Outcome.goOn ⟨hactive, ⟨w, rest, hversions⟩, hrep⟩
  · obtain ⟨hactive, ⟨w, rest, hversions⟩, hrep⟩ := h
    obtain ⟨qs, hqs⟩ := hrep.queue
    have hrest : ((P.popped i u.pickedThreadIndex).queue u.pickedThreadIndex).versions = w :: rest := by
      simp [Protected.popped, hwell.versions_removeFront, hversions]
    obtain ⟨a, as, -, hfront, hw⟩ := hqs.front_eq hrest
    simp only [hfront, Option.map_some, hw]
    by_cases heq : w = u.activeThreadVersion
    · simp only [heq, ne_eq, not_true, if_false]
      refine Outcome.leave hplaced (hrep.settle _ hwell hactive hversions ?_)
      simp [left, Queue.minimumAfter, heq, hrep.popped_minimum]
    · simp only [ne_eq, heq, not_false_eq_true, if_true]
      refine Outcome.goOn ?_
      have hsettled := hrep.settle u.activeThreadVersion hwell hactive hversions
        (by simp [Queue.minimumAfter, heq])
      simpa [Outline, Section.goto] using hsettled
  · obtain ⟨hactive, hversions, hrep⟩ := h
    by_cases heq : (m.queue u.pickedThreadIndex).deleteFront = u.activeThreadVersion
    · simp only [heq, ne_eq, not_true, if_false]
      refine Outcome.leave hplaced (hrep.settle _ hwell hactive hversions ?_)
      simp [left, Queue.minimumAfter, heq, ← hrep.popped_minimum]
    · simp only [ne_eq, heq, not_false_eq_true, if_true]
      refine Outcome.goOn ?_
      have hsettled := hrep.settle (m.queue u.pickedThreadIndex).deleteFront hwell hactive hversions
        (by simp [Queue.minimumAfter, heq, ← hrep.popped_minimum])
      simpa [Outline, Section.goto] using hsettled

theorem Outline.setMinimum (h : Outline i P m x u) (hplaced : Placed x u)
    (hpc : x.pc = .setMinimum ∨ x.pc = .setMinimumFront ∨ x.pc = .setDeleteFront) :
    Safe i P u (statement i m x u) := by
  rcases hpc with hpc | hpc | hpc <;> simp only [Outline, hpc] at h <;> simp only [statement, hpc] <;>
    simp only [Placed, hpc] at hplaced
  · exact Outcome.leave hplaced h
  · exact Outcome.leave hplaced h
  · exact Outcome.goOn h

/-- The lists after `RemoveVersion`. -/
theorem Protected.leave_queue (hactive : u.isThreadActive = true) {w : ℤ}
    (hhead : (P.queue u.pickedThreadIndex).versions.head? = some w) (hne : w ≠ u.activeThreadVersion) :
    (P.leave i u).queue = Function.update P.queue u.pickedThreadIndex
      ((P.queue u.pickedThreadIndex).removeVersion u.activeThreadVersion) := by
  rw [Protected.leave, if_pos hactive, Queue.unregister_eq_removeVersion hhead hne]

/-- The entry is found. It is not at the front, so it is unlinked from the one before it. -/
theorem Represents.foundEntry {qs : Fin n → List Addr} {xs ys : List Addr} {a : Addr} {w : ℤ}
    (h : Represents m (P.deleted i)) (hactive : u.isThreadActive = true)
    (hhead : (P.queue u.pickedThreadIndex).versions.head? = some w) (hne : w ≠ u.activeThreadVersion)
    (hqs : QueuesRep m qs P.queue) (hsplit : qs u.pickedThreadIndex = xs ++ a :: ys)
    (ha : (m.node a).version = u.activeThreadVersion)
    (hbefore : ∀ c ∈ xs, (m.node c).version ≠ u.activeThreadVersion) (hback : x.back = xs.getLast?)
    (hsome : x.current = some a) :
    Outline i P m (x.goto (if x.back = none then .removeHead else .removeLink)) u := by
  have hrepP := hqs.rep u.pickedThreadIndex
  rcases List.eq_nil_or_concat xs with rfl | ⟨xs, b, rfl⟩
  · rw [← hrepP.versions, hsplit, List.nil_append, List.map_cons, List.head?_cons, ha] at hhead
    exact absurd (Option.some.inj hhead).symm hne
  · rw [List.concat_eq_append] at hsplit hbefore hback
    rw [List.getLast?_concat] at hback
    rw [hback, if_neg (by simp)]
    rw [List.append_assoc] at hsplit
    have hlive := hrepP.live a (by simp [hsplit])
    have hfresh := freed_fresh h.freshNode hlive.1
    have hdistinct : b ≠ a := by
      have hnodup := hrepP.nodup
      rw [hsplit] at hnodup
      intro heq
      subst heq
      simp [List.nodup_append] at hnodup
    refine ⟨b, a, hback, hsome, hrepP.live b (by simp [hsplit]), hlive, hdistinct, ?_⟩
    have hremoved := hqs.remove hsplit hbefore ha rfl
    rw [← Protected.leave_queue (i := i) hactive hhead hne] at hremoved
    exact h.withQueues ⟨_, hremoved⟩ hfresh ⟨rfl, rfl⟩ rfl rfl rfl rfl rfl

/-- `RemoveVersion` up to the entry. -/
theorem Outline.removeSearch (h : Outline i P m x u) (hplaced : Placed x u) (hpc : x.pc = .removeTest ∨ x.pc = .removeInit ∨
      x.pc = .removeStep ∨ x.pc = .removeNext) :
    Safe i P u (statement i m x u) := by
  rcases hpc with hpc | hpc | hpc | hpc <;> simp only [Outline, hpc] at h <;>
    simp only [statement, hpc] <;> simp only [Placed, hpc] at hplaced
  · obtain ⟨hactive, hrep, w, hhead, hne⟩ := h
    obtain ⟨qs, hqs⟩ := hrep.queue
    have hcount : (m.queue u.pickedThreadIndex).count ≠ 0 := by
      rw [(hqs.rep _).count, Protected.deleted_queue, ne_eq, List.length_eq_zero_iff]
      intro hnil
      simp [hnil] at hhead
    simp only [if_neg hcount]
    exact Outcome.goOn ⟨hactive, hrep, w, hhead, hne⟩
  · obtain ⟨hactive, hrep, hhead⟩ := h
    obtain ⟨qs, hqs⟩ := hrep.queue
    exact Outcome.goOn ⟨hactive, hrep, hhead, qs, [], qs _, hqs, rfl, (hqs.rep _).chain, rfl, by simp⟩
  · obtain ⟨hactive, hrep, ⟨w, hhead, hne⟩, qs, xs, ys, hqs, hsplit, hchain, hback, hbefore⟩ := h
    have hrepP := hqs.rep u.pickedThreadIndex
    rw [hsplit] at hrepP
    cases ys with
    | nil =>
      have hnone : x.current = none := hchain.eq_none_iff.mpr rfl
      rw [hnone]
      refine Outcome.leave hplaced ?_
      have hnot : (u.activeThreadVersion : ℤ) ∉ (P.queue u.pickedThreadIndex).versions := fun hmem => by
        rw [← hrepP.versions, List.append_nil] at hmem
        obtain ⟨c, hc, heq⟩ := List.mem_map.mp hmem
        exact hbefore c hc heq
      refine hrep.withQueues ⟨qs, ?_⟩ hrep.freshNode ⟨rfl, rfl⟩ rfl rfl rfl rfl rfl
      rw [Protected.leave_queue hactive hhead hne, Queue.removeVersion_of_not_mem hnot,
        Function.update_eq_self]
      exact hqs
    | cons a ys =>
      have hsome : x.current = some a := hchain.1
      rw [hsome]
      by_cases hversion : (m.node a).version = u.activeThreadVersion
      · simp only [if_pos hversion]
        exact Outcome.goOn
          (hrep.foundEntry hactive hhead hne hqs hsplit hversion hbefore hback hsome)
      · simp only [if_neg hversion]
        refine Outcome.goOn ⟨hactive, hrep, ⟨w, hhead, hne⟩, qs, xs, a, ys, hqs, hsplit, rfl, hchain.2, rfl,
          fun c hc => ?_⟩
        rcases List.mem_append.mp hc with hc | hc
        · exact hbefore c hc
        · rwa [List.mem_singleton.mp hc]
  · obtain ⟨hactive, hrep, hhead, qs, xs, a, ys, hqs, hsplit, hsome, hchain, hback, hbefore⟩ := h
    rw [hsome]
    refine Outcome.goOn ⟨hactive, hrep, hhead, qs, xs ++ [a], ys, hqs, ?_, hchain, ?_, hbefore⟩
    · rwa [← List.append_cons]
    · rw [List.getLast?_concat]
      exact hback

theorem Outline.remove (h : Outline i P m x u) (hplaced : Placed x u) (hpc : x.pc = .removeLink ∨ x.pc = .removeFree ∨
      x.pc = .removeRearTest ∨ x.pc = .removeRear ∨ x.pc = .removeCount) :
    Safe i P u (statement i m x u) := by
  rcases hpc with hpc | hpc | hpc | hpc | hpc <;> simp only [Outline, hpc] at h <;>
    simp only [statement, hpc] <;> simp only [Placed, hpc] at hplaced
  · obtain ⟨b, a, hback, hsome, hb, ha, hne, hrep⟩ := h
    rw [hback, hsome]
    refine Outcome.goOn ⟨b, a, hback, hsome, hb, ha, hne, ?_⟩
    simpa [Memory.setNodeLink] using hrep
  · obtain ⟨b, a, hback, hsome, hb, -, hne, hrep⟩ := h
    rw [hsome]
    refine Outcome.goOn ⟨b, hback, ⟨hb.1, ?_⟩, hrep⟩
    simpa [Memory.freeNode, hne] using hb.2
  · obtain ⟨b, hback, -, hrep⟩ := h
    rw [hback, Option.map_some]
    split
    case isTrue hlink =>
      rw [if_pos hlink] at hrep
      refine Outcome.goOn ?_
      simpa [Outline, Section.goto, hback] using hrep
    case isFalse hlink =>
      rw [if_neg hlink] at hrep
      refine Outcome.goOn ?_
      simpa [Outline, Section.goto] using hrep
  · refine Outcome.goOn ?_
    simpa [Outline, Section.goto] using h
  · exact Outcome.leave hplaced h

end Second

/-- Every statement of a section has a result, and the outline holds again after it. The queue of the
picked thread must not be empty where its front is looked at. -/
theorem Outline.safe {i : Fin n} {P : Protected n} {m : Memory n} {x : Section n} {u : Updater n}
    (h : Outline i P m x u) (hplaced : Placed x u) (hin : x.pc ≠ .out ∧ x.pc ≠ .locking ∧ x.pc ≠ .unlock)
    (hwell : (P.queue u.pickedThreadIndex).WellFormed)
    (hqueue : x.pc = .frontTest → (P.queue u.pickedThreadIndex).versions ≠ []) :
    Safe i P u (statement i m x u) := by
  cases hpc : x.pc with
  | out => exact absurd hpc hin.1
  | locking => exact absurd hpc hin.2.1
  | unlock => exact absurd hpc hin.2.2
  | increment | load | fill | linkNode | setHead => exact h.insert (by simp [hpc])
  | captureInit | capture | captureNext => exact h.capture (by simp [hpc])
  | find => exact h.find hplaced hpc
  | addNew => exact h.addNew hpc
  | addTest | addFront | addLink | addRear | addCount => exact h.addRear hplaced (by simp [hpc])
  | deleteInit | deleteTest | deleteNext => exact h.deleteSearch hplaced (by simp [hpc])
  | deleteLink | deleteHead | deleteFree => exact h.delete hplaced (by simp [hpc])
  | frontTest => exact h.frontTest hpc (hqueue hpc)
  | popTest | popFront | popFree | popCount => exact h.pop (by simp [hpc])
  | frontNull | frontDiffers | deleteFrontTest => exact h.frontChange hplaced hwell (by simp [hpc])
  | setMinimum | setMinimumFront | setDeleteFront => exact h.setMinimum hplaced (by simp [hpc])
  | removeTest | removeInit | removeStep | removeNext => exact h.removeSearch hplaced (by simp [hpc])
  | removeLink | removeFree | removeRearTest | removeRear | removeCount => exact h.remove hplaced (by simp [hpc])
  | removeHead | removeHeadCount | removeHeadFree => simp [Outline, hpc] at h

end Multicore.Mvcc
