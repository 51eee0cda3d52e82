import Mathlib.Data.List.FinRange
import Mathlib.Order.Bounds.Basic
import Mathlib.Data.Fintype.Basic
import Multicore.Base.Graph
import Multicore.Base.Run

/-!
# The reference solver, `project1_TA.cpp`

One thread per house runs `FindMinMaxPath`, a breadth-first search that marks the vertices it sees in a
word of flags shared by all threads, one bit a thread. The test of a mark and the `fetch_and_or` that
sets it are one step each; everything else a thread writes is its own until all threads have been
joined. When a thread sets its mark on a vertex and finds the mark of a thread there that it has not
met before, it records the vertex and the depth. `MakeResult` computes the two printed numbers from
these records.

The vertices `1, …, num_vertices` are `Fin numVertices`. An entry of a queue is a vertex or a fence,
which the source tells apart by adding `MAX_DEPTH`. The vertex of a record nobody has written is `none`.
-/

namespace Multicore.Reference

def maxNumHouse : ℕ := 64

def maxEdgePerVertex : ℕ := 10

def maxVertices : ℕ := 10000000

/-- What `InputGraph` reads: houses and rows of neighbours that fit the arrays. -/
structure Input where
  numVertices : ℕ
  numHouse : ℕ
  house : Fin numHouse → Fin numVertices
  /-- The edges, in the order of the input. -/
  edges : List (Fin numVertices × Fin numVertices)
  numHouse_le : numHouse ≤ maxNumHouse
  house_injective : Function.Injective house
  degree_le : ∀ v, incidence edges v ≤ maxEdgePerVertex
  connected : (edgeGraph edges).Connected

/-- `FLAG`. -/
def flag (x : ℕ) : BitVec 64 := 1#64 <<< x

section Reading

variable {V : Type*} [DecidableEq V]

/-- One neighbour is appended to the row of a vertex. -/
def addNeighbor (graph : V → List V) (vid neighbor : V) : V → List V :=
  Function.update graph vid (graph vid ++ [neighbor])

def readGraph (edges : List (V × V)) (graph : V → List V) : V → List V :=
  edges.foldl (fun graph e => addNeighbor (addNeighbor graph e.1 e.2) e.2 e.1) graph

end Reading

namespace Input

variable (input : Input)

def roads : SimpleGraph (Fin input.numVertices) := edgeGraph input.edges

/-- `g_graph`, the neighbours of each vertex. -/
def graph : Fin input.numVertices → List (Fin input.numVertices) := readGraph input.edges fun _ => []

/-- `g_vertex_flag` when the threads start. -/
def initialFlag : Fin input.numVertices → BitVec 64 :=
  (List.finRange input.numHouse).foldl
    (fun flags i => Function.update flags (input.house i) (flag i.val)) fun _ => 0#64

/-- `g_full_flag`. -/
def fullFlag : BitVec 64 :=
  (List.finRange input.numHouse).foldl (fun full i => full ||| flag i.val) 0#64

noncomputable def houseDist (i j : Fin input.numHouse) : ℕ :=
  input.roads.dist (input.house i) (input.house j)

/-- The distances of all pairs of distinct houses. -/
def pairDistances : Set ℕ := {d | ∃ i j, i < j ∧ d = input.houseDist i j}

end Input

/-- An entry of a queue: a vertex, or the fence at the end of a depth. -/
inductive Entry (V : Type*) where
  | vertex (v : V)
  | fence (depth : ℕ)
  deriving DecidableEq, Repr

/-- `VisitInfo`: the vertex and the depth of a first meeting. -/
structure VisitInfo (V : Type*) where
  vid : Option V := none
  depth : ℕ := 0
  deriving DecidableEq, Repr

/-- The next step of a thread. `rest` are the neighbours of the dequeued vertex still to look at. -/
inductive Pc (V : Type*) where
  | dequeue
  | test (rest : List V)
  | mark (neighbor : V) (rest : List V)
  | stopped
  deriving DecidableEq, Repr

/-- The variables of a thread, and its rows of the global arrays. -/
structure Thread (V : Type*) where
  pc : Pc V
  queue : List (Entry V)
  front : ℕ
  currDepth : ℕ
  visitedFlag : BitVec 64
  /-- The row of `g_visit_info`. -/
  visitInfo : ℕ → VisitInfo V
  /-- The row of `g_depth_fence_in_queue`. -/
  depthFence : List ℕ

structure State (n : ℕ) (V : Type*) where
  vertexFlag : V → BitVec 64
  thread : Fin n → Thread V

/-! ### One thread -/

namespace Thread

variable {V : Type*}

/-- The loop over the bits of `flag_before`: one record for each thread met for the first time. The
word is shifted until no bit is left, at most as often as it has bits. -/
def recordLoop (info : VisitInfo V) : ℕ → BitVec 64 → ℕ → (ℕ → VisitInfo V) → ℕ → VisitInfo V
  | 0, _, _, visitInfo => visitInfo
  | rounds + 1, flagBefore, thd, visitInfo =>
    if flagBefore = 0#64 then visitInfo
    else
      recordLoop info rounds (flagBefore >>> 1) (thd + 1)
        (if flagBefore &&& 1#64 ≠ 0#64 then Function.update visitInfo thd info else visitInfo)

/-- What a thread does with the flags it found on a vertex it has just marked. -/
def meet (t : Thread V) (neighbor : V) (flagBefore : BitVec 64) : Thread V :=
  if flagBefore ≠ 0#64 then
    let met := flagBefore &&& ~~~t.visitedFlag
    { t with
      visitedFlag := t.visitedFlag ||| met
      visitInfo := recordLoop ⟨some neighbor, t.currDepth + 1⟩ 64 met 0 t.visitInfo }
  else t

/-- A fence is dequeued: the next one is enqueued, and the thread stops if it has met all others. -/
def passFence (t : Thread V) (fullFlag : BitVec 64) : Thread V :=
  { t with
    pc := if t.visitedFlag = fullFlag then .stopped else .dequeue
    queue := t.queue ++ [.fence (t.currDepth + 1)]
    front := t.front + 1
    currDepth := t.currDepth + 1
    depthFence := t.depthFence ++ [t.front] }

end Thread

/-! ### The threads together -/

namespace State

variable {n : ℕ} {V : Type*}

def setThread (s : State n V) (i : Fin n) (t : Thread V) : State n V :=
  { s with thread := Function.update s.thread i t }

variable {s : State n V} {i j : Fin n} {t : Thread V}

@[simp] theorem setThread_thread_self : (s.setThread i t).thread i = t := Function.update_self _ _ _

theorem setThread_thread_of_ne (hne : j ≠ i) : (s.setThread i t).thread j = s.thread j :=
  Function.update_of_ne hne _ _

end State

section System

variable (input : Input)

def initialThread (i : Fin input.numHouse) : Thread (Fin input.numVertices) where
  pc := .dequeue
  queue := [.vertex (input.house i), .fence 0]
  front := 0
  currDepth := 0
  visitedFlag := flag i
  visitInfo := fun _ => {}
  depthFence := [0]

def initial : State input.numHouse (Fin input.numVertices) where
  vertexFlag := input.initialFlag
  thread := initialThread input

def Enabled (s : State input.numHouse (Fin input.numVertices)) (i : Fin input.numHouse) : Prop :=
  (s.thread i).pc ≠ .stopped

instance (s : State input.numHouse (Fin input.numVertices)) (i : Fin input.numHouse) :
    Decidable (Enabled input s i) :=
  inferInstanceAs (Decidable (_ ≠ _))

/-- One step of the thread `i`. -/
def effect (s : State input.numHouse (Fin input.numVertices)) (i : Fin input.numHouse) :
    State input.numHouse (Fin input.numVertices) :=
  let t := s.thread i
  match t.pc with
  | .dequeue =>
    match t.queue[t.front]? with
    | none => s.setThread i { t with pc := .stopped }
    | some (.fence _) => s.setThread i (t.passFence input.fullFlag)
    | some (.vertex v) =>
      s.setThread i { t with front := t.front + 1, pc := .test (input.graph v) }
  | .test [] => s.setThread i { t with pc := .dequeue }
  | .test (neighbor :: rest) =>
    if s.vertexFlag neighbor &&& flag i ≠ 0#64 then s.setThread i { t with pc := .test rest }
    else s.setThread i { t with pc := .mark neighbor rest }
  | .mark neighbor rest =>
    let t := t.meet neighbor (s.vertexFlag neighbor)
    { s with
      vertexFlag :=
        Function.update s.vertexFlag neighbor (s.vertexFlag neighbor ||| flag i) }.setThread i
      { t with queue := t.queue ++ [Entry.vertex neighbor], pc := .test rest }
  | .stopped => s

/-- The threads, interleaved in any order. -/
abbrev Step := Fires (Enabled input) (effect input)

def AllStopped (s : State input.numHouse (Fin input.numVertices)) : Prop :=
  ∀ i, (s.thread i).pc = .stopped

instance (s : State input.numHouse (Fin input.numVertices)) : Decidable (AllStopped input s) :=
  inferInstanceAs (Decidable (∀ _, _))

end System

/-! ### `MakeResult` -/

section MakeResult

variable {n : ℕ} {V : Type*} [DecidableEq V] (s : State n V)

/-- `g_visit_info[i][j]`. -/
def info (i j : Fin n) : VisitInfo V := (s.thread i).visitInfo j

/-- The sum of the two depths at which a pair of threads met. -/
def dist (p : Fin n × Fin n) : ℕ := (info s p.1 p.2).depth + (info s p.2 p.1).depth

/-- The pairs in the order of the two loops. -/
def pairs (n : ℕ) : List (Fin n × Fin n) :=
  (List.finRange n).flatMap fun i => ((List.finRange n).filter (i < ·)).map fun j => (i, j)

def minDist : ℕ := (pairs n).foldl (fun min p => if dist s p < min then dist s p else min) 999999999

def maxDist : ℕ := (pairs n).foldl (fun max p => if max < dist s p then dist s p else max) 0

/-- The search for a vertex among the queue entries of one depth. A missing fence stands for the end
of the queue. -/
def inDepth (t : Thread V) (depth : ℕ) (vid : Option V) : Bool :=
  ((t.queue.take (t.depthFence[depth + 1]?.getD t.queue.length)).drop
    (t.depthFence[depth]?.getD t.queue.length)).any fun entry => vid.map Entry.vertex = some entry

/-- A candidate for the minimum at which the first loop breaks. -/
def minBreaks (p : Fin n × Fin n) : Bool :=
  !inDepth (s.thread p.2) (info s p.2 p.1).depth (info s p.1 p.2).vid ||
    !inDepth (s.thread p.1) (info s p.1 p.2).depth (info s p.2 p.1).vid

/-- A candidate for the maximum at which the second loop breaks. -/
def maxBreaks (p : Fin n × Fin n) : Bool :=
  !inDepth (s.thread p.2) ((info s p.2 p.1).depth - 1) (info s p.1 p.2).vid &&
    !inDepth (s.thread p.1) ((info s p.1 p.2).depth - 1) (info s p.2 p.1).vid

/-- The first printed number: one less if the loop over the candidates breaks. -/
def resultMin : ℕ :=
  if ((pairs n).filter fun p => dist s p = minDist s).any (minBreaks s) then minDist s - 1
  else minDist s

/-- The second printed number: one less if the loop over the candidates does not break. -/
def resultMax : ℕ :=
  if ((pairs n).filter fun p => dist s p = maxDist s).any (maxBreaks s) then maxDist s
  else maxDist s - 1

end MakeResult

/-- The two printed numbers are the least and the greatest distance of two distinct houses. -/
def RightAnswer (input : Input) (s : State input.numHouse (Fin input.numVertices)) : Prop :=
  IsLeast input.pairDistances (resultMin s) ∧ IsGreatest input.pairDistances (resultMax s)

end Multicore.Reference
