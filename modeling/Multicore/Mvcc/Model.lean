import Mathlib.Data.Fintype.Basic
import Mathlib.Data.List.FinRange
import Mathlib.Data.ZMod.Defs
import Multicore.Base.Run
import Multicore.Mvcc.Queue

/-!
# The updater threads and the garbage collector

The state is what `Project2.cpp` keeps in its globals and in the locals of its threads; one event is
one action that other threads cannot split. The two critical sections are one event each, since both
hold `g_mutex` throughout. Outside them every access to a shared list is an event of its own: reading
a head pointer, following one link, reading `A`, linking a new node in, and, for the collector,
reading `minimum`, cutting a list and freeing a node.

Addresses are never handed out twice, so a node that was freed stays recognisable by its address.
A read of `A` from a freed node returns whatever the event says. `int` is 32 bits wide and wraps;
versions are unbounded numbers, and the `int` parameter of `AddRear` keeps the low 32 bits of one as
a signed number. Stored in a `uint64_t` a negative one would read `2 ^ 64` minus something, which is
no version a run hands out; here it stays negative, which is no version either.
-/

namespace Multicore.Mvcc

abbrev Addr := ℕ

/-- A node of `g_singly_list[i]`. -/
structure SinglyNode where
  A : BitVec 32
  B : BitVec 32
  version : ℕ
  link : Option Addr
  deriving Repr

/-- A node of `g_active_list`. -/
structure ActiveNode (n : ℕ) where
  indexThread : Fin n
  version : ℕ
  deriving DecidableEq, Repr

/-! ### The global active list

It is touched inside the critical sections only, so the list of its nodes says all there is. -/

section ActiveList

variable {n : ℕ}

def insertGlobalActiveList (activeList : List (ActiveNode n)) (index : Fin n) (version : ℕ) :
    List (ActiveNode n) :=
  ⟨index, version⟩ :: activeList

def deleteGlobalActiveList (index : Fin n) : List (ActiveNode n) → List (ActiveNode n)
  | [] => []
  | node :: rest =>
    if node.indexThread = index then rest else node :: deleteGlobalActiveList index rest

/-- `CaptureActiveList` inserts a copy of each node at the head of the capture, which comes out in
reverse. -/
def captureActiveList (activeList : List (ActiveNode n)) : List (ActiveNode n) :=
  activeList.foldl (fun capture node => ⟨node.indexThread, node.version⟩ :: capture) []

end ActiveList

/-! ### Locals -/

inductive UpdaterPc where
  | testRun | testVerbosing | enter | readHead | readOwn | search | readA | readAAgain | insert
  | leave | countUp | done
  deriving DecidableEq, Repr

/-- The locals of `ThreadFunc`. -/
structure Updater (n : ℕ) where
  pc : UpdaterPc
  pickedThreadIndex : Fin n
  currentVersion : ℕ
  captureActiveList : List (ActiveNode n)
  isThreadActive : Bool
  activeThreadVersion : ℕ
  cursorSinglyNode : Option Addr
  myA : BitVec 32
  myB : BitVec 32
  /-- What the first of the two reads of `cursor_singly_node->A` returned. -/
  firstA : BitVec 32
  deriving Repr

/-- Where the collector is; `i` is the list its `for` loop has reached. -/
inductive CollectorPc (n : ℕ) where
  | testRun | testVerbosing
  | readMinimum (i : Fin n) | readHead (i : Fin n) | visit (i : Fin n) | cut (i : Fin n)
  | advance (i : Fin n) | free (i : Fin n)
  | done
  deriving DecidableEq, Repr

/-- The locals of `ThreadGarvageCollectionFunc`. -/
structure Collector (n : ℕ) where
  pc : CollectorPc n
  back : Option Addr
  minimum : ℤ
  tmp : Option Addr
  deleteFlag : Bool
  deriving Repr

structure State (n : ℕ) where
  atomicCounter : ℕ
  activeList : List (ActiveNode n)
  singlyList : Fin n → Addr
  heap : Addr → SinglyNode
  freed : Addr → Bool
  /-- The address the next `malloc` of a node returns. -/
  nextAddr : Addr
  queue : Fin n → Queue ℤ
  threadThroughput : Fin n → ℕ
  couldThreadRun : Bool
  isVerbosing : Bool
  updater : Fin n → Updater n
  collector : Collector n

variable {n : ℕ}

/-- The `int` parameter of `AddRear`. -/
def toInt (version : ℕ) : ℤ := (version : ℤ).bmod (2 ^ 32)

/-! ### `ThreadFunc` -/

def State.setUpdater (s : State n) (i : Fin n) (u : Updater n) : State n :=
  { s with updater := Function.update s.updater i u }

def insertSinglyList (s : State n) (i : Fin n) (A B : BitVec 32) (version : ℕ) : State n :=
  { s with
    heap := Function.update s.heap s.nextAddr ⟨A, B, version, some (s.singlyList i)⟩
    singlyList := Function.update s.singlyList i s.nextAddr
    nextAddr := s.nextAddr + 1 }

/-- The first node of the capture that belongs to the picked thread. -/
def findPicked (capture : List (ActiveNode n)) (picked : Fin n) : Option (ActiveNode n) :=
  capture.find? fun node => decide (node.indexThread = picked)

/-- The first critical section. The loop over the capture stops at the node of the picked thread and
registers its version in that thread's queue. -/
def firstSection (s : State n) (i : Fin n) : State n :=
  let u := s.updater i
  let p := u.pickedThreadIndex
  let version := s.atomicCounter + 1
  let activeList := insertGlobalActiveList s.activeList i version
  let capture := captureActiveList activeList
  let found := findPicked capture p
  { s with
    atomicCounter := version
    activeList := activeList
    queue := match found with
      | some node => Function.update s.queue p ((s.queue p).addRear (toInt node.version))
      | none => s.queue
    updater := Function.update s.updater i
      { u with
        pc := .readHead
        currentVersion := version
        captureActiveList := capture
        isThreadActive := found.isSome
        activeThreadVersion := match found with
          | some node => node.version
          | none => 0 } }

/-- The second critical section. -/
def secondSection (s : State n) (i : Fin n) : State n :=
  let u := s.updater i
  let p := u.pickedThreadIndex
  { s with
    activeList := deleteGlobalActiveList i s.activeList
    queue :=
      if u.isThreadActive then
        Function.update s.queue p ((s.queue p).unregister u.activeThreadVersion)
      else s.queue
    updater := Function.update s.updater i { u with pc := .countUp } }

/-- One round of the search loop: stop at a version below the active one, else follow the link. -/
def searchStep (s : State n) (i : Fin n) : State n :=
  let u := s.updater i
  match u.cursorSinglyNode with
  | none => s
  | some a =>
    if (s.heap a).version < u.activeThreadVersion then s.setUpdater i { u with pc := .readA }
    else s.setUpdater i { u with cursorSinglyNode := (s.heap a).link }

/-- What a read of `A` through the cursor may return: the node's `A`, or anything once the node has
been freed. -/
def MayRead (s : State n) (i : Fin n) (x : BitVec 32) : Prop :=
  match (s.updater i).cursorSinglyNode with
  | none => False
  | some a => s.freed a = false → x = (s.heap a).A

instance (s : State n) (i : Fin n) (x : BitVec 32) : Decidable (MayRead s i x) := by
  unfold MayRead
  split <;> infer_instance

/-! ### `ThreadGarvageCollectionFunc` -/

def CollectorPc.firstList : CollectorPc n :=
  if h : 0 < n then .readMinimum ⟨0, h⟩ else .testRun

def CollectorPc.nextList (i : Fin n) : CollectorPc n :=
  if h : i.val + 1 < n then .readMinimum ⟨i.val + 1, h⟩ else .testRun

def State.setCollector (s : State n) (c : Collector n) : State n := { s with collector := c }

/-- One action of the collector. At `cut` the source writes through `back`, and with `back` still
`NULL` it would crash; the collector then makes no further step. -/
def collectStep (s : State n) : State n :=
  let c := s.collector
  match c.pc with
  | .testRun => s.setCollector { c with pc := if s.couldThreadRun then .testVerbosing else .done }
  | .testVerbosing =>
    s.setCollector { c with pc := if s.isVerbosing then .testRun else .firstList }
  | .readMinimum i =>
    s.setCollector
      { c with pc := .readHead i, back := none, minimum := (s.queue i).minimum }
  | .readHead i =>
    s.setCollector { c with pc := .visit i, tmp := some (s.singlyList i), deleteFlag := false }
  | .visit i =>
    match c.tmp with
    | none => s.setCollector { c with pc := .nextList i }
    | some a =>
      if c.deleteFlag = false ∧ ((s.heap a).version : ℤ) < c.minimum then
        s.setCollector { c with pc := .cut i, deleteFlag := true }
      else s.setCollector { c with pc := .advance i }
  | .cut i =>
    match c.back with
    | none => s
    | some b =>
      { s with
        heap := Function.update s.heap b { s.heap b with link := none }
        collector := { c with pc := .advance i } }
  | .advance i =>
    s.setCollector
      { c with
        pc := if c.deleteFlag then .free i else .visit i
        back := c.tmp
        tmp := match c.tmp with
          | none => none
          | some a => (s.heap a).link }
  | .free i =>
    match c.back with
    | none => s
    | some b =>
      { s with freed := Function.update s.freed b true, collector := { c with pc := .visit i } }
  | .done => s

/-! ### The events -/

inductive Event (n : ℕ) where
  | testRun (i : Fin n)
  | pick (i p : Fin n)
  | enter (i : Fin n)
  | readHead (i : Fin n)
  | readOwn (i : Fin n)
  | search (i : Fin n)
  | readA (i : Fin n) (x : BitVec 32)
  | readAAgain (i : Fin n) (x : BitVec 32)
  | insert (i : Fin n)
  | leave (i : Fin n)
  | countUp (i : Fin n)
  | collect
  | setVerbosing (value : Bool)
  | stopRun
  deriving DecidableEq, Repr

def Enabled (s : State n) : Event n → Prop
  | .testRun i => (s.updater i).pc = .testRun
  | .pick i p => (s.updater i).pc = .testVerbosing ∧ p ≠ i
  | .enter i => (s.updater i).pc = .enter
  | .readHead i => (s.updater i).pc = .readHead
  | .readOwn i => (s.updater i).pc = .readOwn
  | .search i => (s.updater i).pc = .search ∧ (s.updater i).cursorSinglyNode ≠ none
  | .readA i x => (s.updater i).pc = .readA ∧ MayRead s i x
  | .readAAgain i x => (s.updater i).pc = .readAAgain ∧ MayRead s i x
  | .insert i => (s.updater i).pc = .insert
  | .leave i => (s.updater i).pc = .leave
  | .countUp i => (s.updater i).pc = .countUp
  | .collect => s.collector.pc ≠ .done
  | .setVerbosing _ => s.couldThreadRun = true
  | .stopRun => s.couldThreadRun = true ∧ s.isVerbosing = false

instance decidableEnabled (s : State n) (e : Event n) : Decidable (Enabled s e) := by
  cases e <;> unfold Enabled <;> infer_instance

def effect (s : State n) : Event n → State n
  | .testRun i =>
    s.setUpdater i
      { s.updater i with pc := if s.couldThreadRun then .testVerbosing else .done }
  | .pick i p =>
    if s.isVerbosing then s.setUpdater i { s.updater i with pc := .testRun }
    else s.setUpdater i { s.updater i with pc := .enter, pickedThreadIndex := p }
  | .enter i => firstSection s i
  | .readHead i =>
    s.setUpdater i
      { s.updater i with
        pc := .readOwn
        cursorSinglyNode := some (s.singlyList (s.updater i).pickedThreadIndex) }
  | .readOwn i =>
    s.setUpdater i
      { s.updater i with
        pc := if (s.updater i).isThreadActive then .search else .readA
        myA := (s.heap (s.singlyList i)).A
        myB := (s.heap (s.singlyList i)).B }
  | .search i => searchStep s i
  | .readA i x =>
    s.setUpdater i
      { s.updater i with
        pc := .readAAgain, firstA := x, myA := (s.updater i).myA + x.srem 100 }
  | .readAAgain i x =>
    s.setUpdater i
      { s.updater i with pc := .insert, myB := (s.updater i).myB - x.srem 100 }
  | .insert i =>
    (insertSinglyList s i (s.updater i).myA (s.updater i).myB (s.updater i).currentVersion).setUpdater
      i { s.updater i with pc := .leave }
  | .leave i => secondSection s i
  | .countUp i =>
    { s with
      threadThroughput := Function.update s.threadThroughput i (s.threadThroughput i + 1)
      updater := Function.update s.updater i
        { s.updater i with pc := .testRun, captureActiveList := [] } }
  | .collect => collectStep s
  | .setVerbosing value => { s with isVerbosing := value }
  | .stopRun => { s with couldThreadRun := false }

abbrev Step : State n → Event n → State n → Prop := Fires Enabled effect

/-! ### The state `main` starts the threads in -/

/-- The locals before their first assignment. -/
def initialUpdater (i : Fin n) : Updater n :=
  { pc := .testRun, pickedThreadIndex := i, currentVersion := 0, captureActiveList := []
    isThreadActive := false, activeThreadVersion := 0, cursorSinglyNode := none
    myA := 0, myB := 0, firstA := 0 }

/-- Every list holds one node, of version `0`, with the values `main` drew for the thread. -/
def initial (a b : Fin n → BitVec 32) : State n :=
  { atomicCounter := 0
    activeList := []
    singlyList := fun i => i.val
    heap := fun addr =>
      if h : addr < n then ⟨a ⟨addr, h⟩, b ⟨addr, h⟩, 0, none⟩ else ⟨0, 0, 0, none⟩
    freed := fun _ => false
    nextAddr := n
    queue := fun _ => Queue.createQueue
    threadThroughput := fun _ => 0
    couldThreadRun := true
    isVerbosing := false
    updater := initialUpdater
    collector := { pc := .testRun, back := none, minimum := 0, tmp := none, deleteFlag := false } }

def beforeCorrectness (a b : Fin n → BitVec 32) : BitVec 32 :=
  (List.finRange n).foldl (fun sum i => sum + (a i + b i)) 0

def afterCorrectness (s : State n) : BitVec 32 :=
  (List.finRange n).foldl
    (fun sum i => sum + ((s.heap (s.singlyList i)).A + (s.heap (s.singlyList i)).B)) 0

/-- All threads have returned, so the joins of `main` are over. -/
def Joined (s : State n) : Prop :=
  (∀ i, (s.updater i).pc = .done) ∧ s.collector.pc = .done

instance (s : State n) : Decidable (Joined s) := inferInstanceAs (Decidable (_ ∧ _))

end Multicore.Mvcc
