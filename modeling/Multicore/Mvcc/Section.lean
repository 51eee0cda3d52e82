import Multicore.Base.Lock
import Multicore.Mvcc.Views

/-!
# The critical sections, statement by statement

`Model` takes each critical section of `ThreadFunc` as one event. Here a section is what the source has:
a lock that is taken in steps, statements that follow pointers through `g_active_list` and `g_queue[p]`,
and an unlock. Each statement that reads or writes a shared variable or a node is an event, and all other
threads may run between two of them: updaters outside their sections, updaters waiting for the lock, and
the collector, which reads `minimum` without any lock.

Which lock it is stays open. The source takes `g_mutex` and has `bakery_lock` beside it, commented out.

The nodes of `g_active_list` and of the queues are cells of memory. A node that was freed keeps its
address, and what `malloc` returns holds whatever was in memory before. Following a `NULL` pointer is the
end of the program, so such a statement has no result. The capture of the active list is built from nodes
that no other thread can reach, and it is a list of the thread's own here as in `Model`.
-/

namespace Multicore.Mvcc

variable {n : ℕ}

/-- A node of `g_active_list` in memory. -/
structure ActiveCell (n : ℕ) where
  indexThread : Fin n
  version : ℕ
  link : Option Addr
  deriving Repr

structure QueueCell where
  version : ℤ
  link : Option Addr
  deriving Repr

/-- `Queue` in memory. -/
structure QueueHead where
  count : ℕ
  minimum : ℤ
  deleteFront : ℤ
  front : Option Addr
  rear : Option Addr
  deriving Repr

/-- The memory the critical sections work on. -/
structure Memory (n : ℕ) where
  atomicCounter : ℕ
  activeList : Option Addr
  active : Addr → ActiveCell n
  activeFreed : Addr → Bool
  nextActive : Addr
  queue : Fin n → QueueHead
  node : Addr → QueueCell
  nodeFreed : Addr → Bool
  nextNode : Addr

namespace Memory

/-- `malloc` of a node of the active list, and its first two fields. -/
def newActive (m : Memory n) (i : Fin n) (version : ℕ) : Memory n :=
  { m with
    active := Function.update m.active m.nextActive
      { m.active m.nextActive with indexThread := i, version := version }
    nextActive := m.nextActive + 1 }

def setActiveLink (m : Memory n) (a : Addr) (link : Option Addr) : Memory n :=
  { m with active := Function.update m.active a { m.active a with link := link } }

def setActiveList (m : Memory n) (head : Option Addr) : Memory n := { m with activeList := head }

def freeActive (m : Memory n) (a : Addr) : Memory n :=
  { m with activeFreed := Function.update m.activeFreed a true }

def setQueue (m : Memory n) (p : Fin n) (q : QueueHead) : Memory n :=
  { m with queue := Function.update m.queue p q }

@[simp] def setFront (m : Memory n) (p : Fin n) (front : Option Addr) : Memory n :=
  m.setQueue p { m.queue p with front := front }

@[simp] def setRear (m : Memory n) (p : Fin n) (rear : Option Addr) : Memory n :=
  m.setQueue p { m.queue p with rear := rear }

@[simp] def setCount (m : Memory n) (p : Fin n) (count : ℕ) : Memory n :=
  m.setQueue p { m.queue p with count := count }

@[simp] def setMinimum (m : Memory n) (p : Fin n) (minimum : ℤ) : Memory n :=
  m.setQueue p { m.queue p with minimum := minimum }

@[simp] def setDeleteFront (m : Memory n) (p : Fin n) (deleteFront : ℤ) : Memory n :=
  m.setQueue p { m.queue p with deleteFront := deleteFront }

/-- `malloc` of a node of a queue, and its fields. -/
def newNode (m : Memory n) (version : ℤ) : Memory n :=
  { m with
    node := Function.update m.node m.nextNode ⟨version, none⟩
    nextNode := m.nextNode + 1 }

def setNodeLink (m : Memory n) (a : Addr) (link : Option Addr) : Memory n :=
  { m with node := Function.update m.node a { m.node a with link := link } }

def freeNode (m : Memory n) (a : Addr) : Memory n :=
  { m with nodeFreed := Function.update m.nodeFreed a true }

/-- The node was allocated and is not freed. -/
abbrev ActiveLive (m : Memory n) (a : Addr) : Prop := a < m.nextActive ∧ m.activeFreed a = false

abbrev NodeLive (m : Memory n) (a : Addr) : Prop := a < m.nextNode ∧ m.nodeFreed a = false

@[simp] theorem setQueue_queue (m : Memory n) (p : Fin n) (q : QueueHead) :
    (m.setQueue p q).queue p = q := Function.update_self ..

@[simp] theorem freeNode_queue (m : Memory n) (a : Addr) : (m.freeNode a).queue = m.queue := rfl

@[simp] theorem setNodeLink_queue (m : Memory n) (a : Addr) (link : Option Addr) :
    (m.setNodeLink a link).queue = m.queue := rfl

@[simp] theorem setQueue_setQueue (m : Memory n) (p : Fin n) (q q' : QueueHead) :
    (m.setQueue p q).setQueue p q' = m.setQueue p q' := by
  simp [setQueue]

end Memory

/-! ### The statements -/

inductive SectionPc where
  | out
  | locking
  -- The first critical section, with `InsertGlobalActiveList`, `CaptureActiveList` and `AddRear`.
  | increment | load | fill | linkNode | setHead
  | captureInit | capture | captureNext | find
  | addNew | addTest | addFront | addLink | addRear | addCount
  -- The second one: `DeleteGlobalActiveList`,
  | deleteInit | deleteTest | deleteNext | deleteLink | deleteHead | deleteFree
  -- the entry of the queue at the front, with `RemoveFront`,
  | frontTest | popTest | popFront | popFree | popCount
  | frontNull | frontDiffers | setMinimum | deleteFrontTest | setMinimumFront | setDeleteFront
  -- or behind it, with `RemoveVersion`.
  | removeTest | removeInit | removeStep | removeNext
  | removeLink | removeFree | removeRearTest | removeRear | removeCount
  | removeHead | removeHeadCount | removeHeadFree
  | unlock
  deriving DecidableEq, Repr

/-- What a thread keeps while it is in a section. -/
structure Section (n : ℕ) where
  pc : SectionPc
  version : ℕ
  capture : List (ActiveNode n)
  found : Option (ActiveNode n)
  /-- `tmp` of the capture and of `RemoveFront`, `current_node` of the other functions. -/
  current : Option Addr
  back : Option Addr
  node : Addr
  deriving Repr

def Section.goto (x : Section n) (pc : SectionPc) : Section n := { x with pc := pc }

/-- The locals of `ThreadFunc` after the first critical section. -/
def entered (x : Section n) (u : Updater n) : Updater n :=
  { u with
    pc := .readHead
    currentVersion := x.version
    captureActiveList := x.capture
    isThreadActive := x.found.isSome
    activeThreadVersion := match x.found with
      | some node => node.version
      | none => 0 }

/-- The locals after the second one. -/
def left (u : Updater n) : Updater n := { u with pc := .countUp }

/-- After `DeleteGlobalActiveList`: the queue is looked at only if the picked thread was active. -/
def afterDelete (m : Memory n) (x : Section n) (u : Updater n) : Memory n × Section n × Updater n :=
  if u.isThreadActive then (m, x.goto .frontTest, u) else (m, x.goto .unlock, left u)

/-- The next statement of thread `i` in its section. -/
def statement (i : Fin n) (m : Memory n) (x : Section n) (u : Updater n) :
    Option (Memory n × Section n × Updater n) :=
  let p := u.pickedThreadIndex
  let v : ℤ := u.activeThreadVersion
  match x.pc with
  | .out | .locking | .unlock => none
  | .increment => some ({ m with atomicCounter := m.atomicCounter + 1 }, x.goto .load, u)
  | .load => some (m, { x with pc := .fill, version := m.atomicCounter }, u)
  -- The version is loaded once more for the node.
  | .fill =>
    some (m.newActive i m.atomicCounter, { x with pc := .linkNode, node := m.nextActive }, u)
  | .linkNode => some (m.setActiveLink x.node m.activeList, x.goto .setHead, u)
  | .setHead => some (m.setActiveList (some x.node), x.goto .captureInit, u)
  | .captureInit => some (m, { x with pc := .capture, current := m.activeList, capture := [] }, u)
  | .capture =>
    match x.current with
    | none => some (m, x.goto .find, u)
    | some a =>
      some (m, { x with
        pc := .captureNext
        capture := ⟨(m.active a).indexThread, (m.active a).version⟩ :: x.capture }, u)
  | .captureNext =>
    x.current.map fun a => (m, { x with pc := .capture, current := (m.active a).link }, u)
  | .find =>
    match findPicked x.capture p with
    | some node => some (m, { x with pc := .addNew, found := some node }, u)
    | none => some (m, { x with pc := .unlock, found := none }, entered { x with found := none } u)
  | .addNew =>
    x.found.map fun node =>
      (m.newNode (toInt node.version), { x with pc := .addTest, node := m.nextNode }, u)
  | .addTest => some (m, x.goto (if (m.queue p).count = 0 then .addFront else .addLink), u)
  | .addFront => some (m.setFront p (some x.node), x.goto .addRear, u)
  | .addLink =>
    (m.queue p).rear.map fun rear => (m.setNodeLink rear (some x.node), x.goto .addRear, u)
  | .addRear => some (m.setRear p (some x.node), x.goto .addCount, u)
  | .addCount => some (m.setCount p ((m.queue p).count + 1), x.goto .unlock, entered x u)
  | .deleteInit => some (m, { x with pc := .deleteTest, current := m.activeList, back := none }, u)
  | .deleteTest =>
    match x.current with
    | none => some (afterDelete m x u)
    | some a =>
      if (m.active a).indexThread = i then
        some (m, x.goto (if x.back = none then .deleteHead else .deleteLink), u)
      else some (m, { x with pc := .deleteNext, back := x.current }, u)
  | .deleteNext =>
    x.current.map fun a => (m, { x with pc := .deleteTest, current := (m.active a).link }, u)
  | .deleteLink =>
    x.back.bind fun b => x.current.map fun a =>
      (m.setActiveLink b (m.active a).link, x.goto .deleteFree, u)
  | .deleteHead =>
    x.current.map fun a => (m.setActiveList (m.active a).link, x.goto .deleteFree, u)
  | .deleteFree => x.current.map fun a => afterDelete (m.freeActive a) x u
  | .frontTest =>
    (m.queue p).front.map fun a =>
      (m, x.goto (if (m.node a).version = v then .popTest else .removeTest), u)
  | .popTest => some (m, x.goto (if (m.queue p).count = 0 then .frontNull else .popFront), u)
  | .popFront =>
    (m.queue p).front.map fun a =>
      (m.setFront p (m.node a).link, { x with pc := .popFree, current := some a }, u)
  | .popFree => x.current.map fun a => (m.freeNode a, x.goto .popCount, u)
  | .popCount => some (m.setCount p ((m.queue p).count - 1), x.goto .frontNull, u)
  | .frontNull =>
    some (m, x.goto (if (m.queue p).front = none then .deleteFrontTest else .frontDiffers), u)
  | .frontDiffers =>
    (m.queue p).front.map fun a =>
      if (m.node a).version ≠ v then (m, x.goto .setMinimum, u)
      else (m, x.goto .setDeleteFront, left u)
  | .setMinimum => some (m.setMinimum p v, x.goto .setDeleteFront, left u)
  | .deleteFrontTest =>
    some (if (m.queue p).deleteFront ≠ v then (m, x.goto .setMinimumFront, u)
      else (m, x.goto .setDeleteFront, left u))
  | .setMinimumFront =>
    some (m.setMinimum p (m.queue p).deleteFront, x.goto .setDeleteFront, left u)
  | .setDeleteFront => some (m.setDeleteFront p v, x.goto .unlock, u)
  | .removeTest =>
    some (if (m.queue p).count = 0 then (m, x.goto .unlock, left u) else (m, x.goto .removeInit, u))
  | .removeInit =>
    some (m, { x with pc := .removeStep, current := (m.queue p).front, back := none }, u)
  | .removeStep =>
    match x.current with
    | none => some (m, x.goto .unlock, left u)
    | some a =>
      if (m.node a).version = v then
        some (m, x.goto (if x.back = none then .removeHead else .removeLink), u)
      else some (m, { x with pc := .removeNext, back := x.current }, u)
  | .removeNext =>
    x.current.map fun a => (m, { x with pc := .removeStep, current := (m.node a).link }, u)
  | .removeLink =>
    x.back.bind fun b => x.current.map fun a =>
      (m.setNodeLink b (m.node a).link, x.goto .removeFree, u)
  | .removeFree => x.current.map fun a => (m.freeNode a, x.goto .removeRearTest, u)
  | .removeRearTest =>
    x.back.map fun b =>
      (m, x.goto (if (m.node b).link = none then .removeRear else .removeCount), u)
  | .removeRear => some (m.setRear p x.back, x.goto .removeCount, u)
  | .removeCount => some (m.setCount p ((m.queue p).count - 1), x.goto .unlock, left u)
  | .removeHead =>
    x.current.map fun a => (m.setFront p (m.node a).link, x.goto .removeHeadCount, u)
  | .removeHeadCount => some (m.setCount p ((m.queue p).count - 1), x.goto .removeHeadFree, u)
  | .removeHeadFree => x.current.map fun a => (m.freeNode a, x.goto .unlock, left u)

/-- The nodes of the active list that a statement reads, writes or frees. -/
def activeTouched (x : Section n) : List Addr :=
  match x.pc with
  | .linkNode => [x.node]
  | .capture | .captureNext | .deleteTest | .deleteNext | .deleteHead | .deleteFree => x.current.toList
  | .deleteLink => x.back.toList ++ x.current.toList
  | _ => []

/-- The nodes of queues that a statement reads, writes or frees. -/
def nodeTouched (m : Memory n) (x : Section n) (u : Updater n) : List Addr :=
  match x.pc with
  | .addLink => (m.queue u.pickedThreadIndex).rear.toList
  | .frontTest | .popFront | .frontDiffers => (m.queue u.pickedThreadIndex).front.toList
  | .popFree | .removeStep | .removeNext | .removeFree | .removeHead | .removeHeadFree => x.current.toList
  | .removeLink => x.back.toList ++ x.current.toList
  | .removeRearTest => x.back.toList
  | _ => []

/-! ### The whole program -/

/-- `pthread_mutex_lock` of a free mutex and `pthread_mutex_unlock` by its owner. -/
def mutexAdvance (owner : Option (Fin n)) (i : Fin n) : Option (Option (Fin n)) :=
  match owner with
  | none => some (some i)
  | some j => if j = i then some none else none

theorem mutexAdvance_cases {owner owner' : Option (Fin n)} {i : Fin n}
    (hstep : mutexAdvance owner i = some owner') :
    owner = none ∧ owner' = some i ∨ owner = some i ∧ owner' = none := by
  cases owner with
  | none => exact .inl ⟨rfl, (Option.some.inj hstep).symm⟩
  | some j =>
    by_cases heq : j = i
    · simp only [mutexAdvance, if_pos heq] at hstep
      exact .inr ⟨congrArg some heq, (Option.some.inj hstep).symm⟩
    · simp only [mutexAdvance, if_neg heq] at hstep
      cases hstep

/-- `g_mutex` -/
def gMutex (n : ℕ) : Lock n where
  State := Option (Fin n)
  initial := none
  advance := mutexAdvance
  holds owner i := decide (owner = some i)
  not_holds_initial _ := rfl
  exclusive _ _ _ _ _ hi hj := Option.some.inj ((of_decide_eq_true hi).symm.trans (of_decide_eq_true hj))
  others _ _ _ _ hstep hne := by
    rcases mutexAdvance_cases hstep with ⟨rfl, rfl⟩ | ⟨rfl, rfl⟩ <;> simpa using hne.symm
  release _ _ _ hstep hi := by
    rcases mutexAdvance_cases hstep with ⟨rfl, rfl⟩ | ⟨rfl, rfl⟩
    · simp at hi
    · rfl

/-- Of `outside` the counter, the active list and the queues are not used: they are in `memory`. -/
structure Fine (L : Lock n) where
  outside : State n
  memory : Memory n
  inside : Fin n → Section n
  lock : L.State

inductive FineEvent (n : ℕ) where
  /-- What `Model` has as an event outside the sections. -/
  | outside (e : Event n)
  | begin (i : Fin n)
  | lock (i : Fin n)
  | statement (i : Fin n)
  | unlock (i : Fin n)
  deriving DecidableEq, Repr

/-- What `Model` has as one event and is a section of statements here. -/
def Event.isSection : Event n → Bool
  | .enter _ | .leave _ => true
  | _ => false

namespace Fine

variable {L : Lock n}

/-- The state as the events outside the sections see it: of a queue the collector reads `minimum`. -/
def view (s : Fine L) : State n :=
  { s.outside with
    queue := fun p => { (Queue.createQueue : Queue ℤ) with minimum := (s.memory.queue p).minimum } }

def setInside (s : Fine L) (i : Fin n) (x : Section n) : Fine L :=
  { s with inside := Function.update s.inside i x }

/-- The section a thread is about to enter. -/
def firstStatement (u : Updater n) : SectionPc := if u.pc = .enter then .increment else .deleteInit

/-- The result of an event, if it may happen. -/
def advance (s : Fine L) : FineEvent n → Option (Fine L)
  | .outside e =>
    if e.isSection = false ∧ (∀ i, e.thread = some i → (s.inside i).pc = .out) ∧ Enabled s.view e then
      some { s with outside := effect s.view e }
    else none
  | .begin i =>
    if (s.inside i).pc = .out ∧ ((s.outside.updater i).pc = .enter ∨ (s.outside.updater i).pc = .leave)
    then some (s.setInside i ((s.inside i).goto .locking))
    else none
  | .lock i =>
    if (s.inside i).pc = .locking then
      (L.advance s.lock i).map fun l =>
        { s with lock := l }.setInside i
          (if L.holds l i then (s.inside i).goto (firstStatement (s.outside.updater i)) else s.inside i)
    else none
  | .statement i =>
    (Mvcc.statement i s.memory (s.inside i) (s.outside.updater i)).map fun r =>
      { s with memory := r.1, outside := s.outside.setUpdater i r.2.2 }.setInside i r.2.1
  | .unlock i =>
    if (s.inside i).pc = .unlock then
      (L.advance s.lock i).map fun l => { s with lock := l }.setInside i ((s.inside i).goto .out)
    else none

abbrev Step (L : Lock n) (s : Fine L) (e : FineEvent n) (s' : Fine L) : Prop := s.advance e = some s'

end Fine

/-- What `main` sets up. The nodes in memory hold whatever `malloc` leaves there. -/
def initialMemory (active : Addr → ActiveCell n) (node : Addr → QueueCell) : Memory n :=
  { atomicCounter := 0, activeList := none, active := active, activeFreed := fun _ => false
    nextActive := 0, queue := fun _ => ⟨0, 0, 0, none, none⟩, node := node
    nodeFreed := fun _ => false, nextNode := 0 }

def initialSection : Section n :=
  { pc := .out, version := 0, capture := [], found := none, current := none, back := none, node := 0 }

def initialFine (L : Lock n) (a b : Fin n → BitVec 32) (active : Addr → ActiveCell n)
    (node : Addr → QueueCell) : Fine L :=
  ⟨initial a b, initialMemory active node, fun _ => initialSection, L.initial⟩

end Multicore.Mvcc
