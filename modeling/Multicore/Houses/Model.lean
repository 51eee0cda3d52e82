import Mathlib.Data.List.FinRange
import Mathlib.Order.Bounds.Basic
import Mathlib.Data.Fintype.Basic
import Multicore.Base.Graph
import Multicore.Base.Run

/-!
# The house distances of `Project1.cpp`

`main` reads the houses and the roads, `Search` runs once for every house but the last, and `main`
takes the least and the greatest of what the calls stored. The calls share `g_total_max`, `g_i_max`
and `g_house_distance_i_to_all`: every access to one of them is a step of its own, together with the
work on local variables that follows it. A call owns its visit flags and its search array, and its
entries of the two result arrays are read after all calls have returned.

The vertices `1, …, vertice_num` are `Fin verticeNum`. The pair `is_house`, `house` of a vertex is one
optional value. The block that returns early is a parameter, so that the program without it is a
model of the same kind.
-/

namespace Multicore.Houses

def maxEdgeNum : ℕ := 10

def intMax : ℕ := 2 ^ 31 - 1

/-- What `main` reads. `Search` is called only when there are two houses. -/
structure Layout where
  verticeNum : ℕ
  houseNum : ℕ
  house : Fin houseNum → Fin verticeNum
  /-- The roads, in the order of the input. -/
  edges : List (Fin verticeNum × Fin verticeNum)
  two_le_houseNum : 2 ≤ houseNum

/-- A connected layout of distinct houses within the limits that the arrays of `main` set. The number
of vertices is read as an `int`. -/
structure Input extends Layout where
  verticeNum_le : verticeNum ≤ intMax
  house_injective : Function.Injective house
  degree_pos : ∀ v, 1 ≤ incidence edges v
  degree_le : ∀ v, incidence edges v ≤ maxEdgeNum
  connected : (edgeGraph edges).Connected

instance : Coe Input Layout := ⟨Input.toLayout⟩

/-- `Vertex`: the neighbours in the order they were inserted, and the house among them that was
inserted last. -/
structure Vertex (V : Type*) where
  adjacency : List V := []
  house : Option V := none

section Reading

variable {V : Type*} [DecidableEq V] (houseVertice : V → Bool)

def insertEdge (vertice : V → Vertex V) (first second : V) : V → Vertex V :=
  Function.update vertice first
    { adjacency := (vertice first).adjacency ++ [second]
      house := if houseVertice second then some second else (vertice first).house }

/-- One road of the input is inserted in both directions. -/
def readEdge (vertice : V → Vertex V) (edge : V × V) : V → Vertex V :=
  insertEdge houseVertice (insertEdge houseVertice vertice edge.1 edge.2) edge.2 edge.1

def readEdges (edges : List (V × V)) (vertice : V → Vertex V) : V → Vertex V :=
  edges.foldl (readEdge houseVertice) vertice

end Reading

namespace Layout

variable (layout : Layout)

def graph : SimpleGraph (Fin layout.verticeNum) := edgeGraph layout.edges

/-- `house_vertice`. -/
def houseVertice (v : Fin layout.verticeNum) : Bool := decide (∃ i, layout.house i = v)

def vertice : Fin layout.verticeNum → Vertex (Fin layout.verticeNum) :=
  readEdges layout.houseVertice layout.edges fun _ => {}

/-- The shortest-path distance between two houses. -/
noncomputable def houseDist (i j : Fin layout.houseNum) : ℕ :=
  layout.graph.dist (layout.house i) (layout.house j)

/-- The distances of all pairs of distinct houses. -/
def pairDistances : Set ℕ := {d | ∃ i j, i < j ∧ d = layout.houseDist i j}

def firstHouse : Fin layout.houseNum :=
  ⟨0, Nat.lt_of_lt_of_le Nat.zero_lt_two layout.two_le_houseNum⟩

end Layout

/-- The next step of a call of `Search`. The index of a house is the loop variable `j` or `q` that the
step uses. -/
inductive Pc (n : ℕ) where
  | visit
  | recordDistance (j : Fin n)
  | testIMax (q : Fin n) | testDistance (q : Fin n) | loadDistance (q : Fin n) | loadIMax (q : Fin n)
  | compareTotal (q : Fin n)
  | compareMost | storeTotal | storeIMax | returned
  deriving DecidableEq, Repr

/-- The local variables of a call of `Search`. -/
structure Search (n : ℕ) (V : Type*) where
  pc : Pc n
  i : ℕ
  distance : ℕ
  searchArray : List V
  visitVertice : V → Bool
  visitHouse : V → Bool
  totalCount : ℕ
  cycleCount : ℕ
  leastFlag : Bool
  least : ℕ
  most : ℕ
  countEnd : ℕ
  /-- The left side of the comparison with `g_total_max`, as far as it is loaded. -/
  sum : ℕ

/-- The shared memory and the calls, by the index of the house they start from. -/
structure State (n : ℕ) (V : Type*) where
  totalMax : ℕ
  iMax : Fin n → ℕ
  distanceToAll : Fin n → Fin n → ℕ
  distanceLeast : Fin n → ℕ
  distanceMost : Fin n → ℕ
  call : Fin n → Search n V

/-! ### One call -/

namespace Search

section Expand

variable {n : ℕ} {V : Type*} [DecidableEq V]

/-- One round of the loop over the neighbours. -/
def push (c : Search n V) (v : V) : Search n V :=
  if c.visitVertice v then c
  else
    { c with
      searchArray := c.searchArray ++ [v]
      visitVertice := Function.update c.visitVertice v true
      totalCount := c.totalCount + 1 }

/-- The step from one level to the next, when the last vertex of the level has been visited. -/
def endLevel (c : Search n V) : Search n V :=
  if c.i = c.cycleCount then
    { c with cycleCount := c.cycleCount + c.totalCount, totalCount := 0, distance := c.distance + 1 }
  else c

/-- The end of the body of the outer loop: the neighbours of the visited vertex are appended to the
search array. The loop over them tests its condition at the end; only a start without roads has no
neighbours, and with it the search array ends at once. -/
def expand (adjacency : List V) (c : Search n V) : Search n V :=
  let c := endLevel (adjacency.foldl push c)
  { c with i := c.i + 1, pc := .visit }

end Expand

variable (layout : Layout) (pruning : Bool) (start : Fin layout.houseNum)
  (c : Search layout.houseNum (Fin layout.verticeNum))

/-- The test of `count_end` and what follows it when the call goes on. -/
def checkEnd (current : Fin layout.verticeNum) : Search layout.houseNum (Fin layout.verticeNum) :=
  if c.countEnd = layout.houseNum then { c with pc := .compareMost }
  else c.expand (layout.vertice current).adjacency

/-- The vertex under visit, `search_array[i]`. -/
def current : Option (Fin layout.verticeNum) := c.searchArray[c.i]?

/-- What a newly found house does to `least` and `most`. -/
def updateExtremes (current : Fin layout.verticeNum) :
    Search layout.houseNum (Fin layout.verticeNum) :=
  if c.leastFlag = false then
    let c := { c with most := c.distance }
    if pruning then { c with pc := .testIMax layout.firstHouse } else checkEnd layout c current
  else if 1 < c.distance then checkEnd layout { c with least := c.distance, leastFlag := false } current
  else checkEnd layout c current

/-- The house is new to the call; its index is looked for behind that of the start. -/
def findHouse (current h : Fin layout.verticeNum) : Search layout.houseNum (Fin layout.verticeNum) :=
  let c := { c with visitHouse := Function.update c.visitHouse h true }
  match (List.finRange layout.houseNum).find? fun j => start < j ∧ layout.house j = h with
  | some j => { c with countEnd := c.countEnd + 1, pc := .recordDistance j }
  | none => updateExtremes layout pruning c current

/-- The body of the outer loop up to the first access to shared memory. -/
def visit (current : Fin layout.verticeNum) : Search layout.houseNum (Fin layout.verticeNum) :=
  match (layout.vertice current).house with
  | none => c.expand (layout.vertice current).adjacency
  | some h =>
    if c.visitHouse h then c.expand (layout.vertice current).adjacency
    else findHouse layout pruning start c current h

/-- The next round of the loop over `q`, or the end of the loop. -/
def nextQ (current : Fin layout.verticeNum) (q : Fin layout.houseNum) :
    Search layout.houseNum (Fin layout.verticeNum) :=
  if h : q.val + 1 < layout.houseNum then { c with pc := .testIMax ⟨q.val + 1, h⟩ }
  else checkEnd layout c current

end Search

/-! ### The calls together -/

namespace State

variable {n : ℕ} {V : Type*}

def setCall (s : State n V) (start : Fin n) (c : Search n V) : State n V :=
  { s with call := Function.update s.call start c }

/-- The two stores to the result arrays. -/
def setResult (s : State n V) (start : Fin n) (least most : ℕ) : State n V :=
  { s with
    distanceLeast := Function.update s.distanceLeast start least
    distanceMost := Function.update s.distanceMost start most }

variable {s : State n V} {start other : Fin n} {c : Search n V}

@[simp] theorem setCall_call_self : (s.setCall start c).call start = c := Function.update_self _ _ _

theorem setCall_call_of_ne (hne : other ≠ start) : (s.setCall start c).call other = s.call other :=
  Function.update_of_ne hne _ _

end State

section System

variable (layout : Layout)

/-- A call at its first step; all memory is zero. -/
def initialCall (start : Fin layout.houseNum) : Search layout.houseNum (Fin layout.verticeNum) where
  pc := .visit
  i := 0
  distance := 0
  searchArray := [layout.house start]
  visitVertice := Function.update (fun _ => false) (layout.house start) true
  visitHouse := fun _ => false
  totalCount := 0
  cycleCount := 0
  leastFlag := true
  least := 0
  most := 0
  countEnd := 1 + start
  sum := 0

def initial : State layout.houseNum (Fin layout.verticeNum) where
  totalMax := 0
  iMax := fun _ => 0
  distanceToAll := fun _ _ => 0
  distanceLeast := fun _ => 0
  distanceMost := fun _ => 0
  call := initialCall layout

/-- The indices `Search` is called with. -/
def IsStart (start : Fin layout.houseNum) : Prop := start.val + 1 < layout.houseNum

instance (start : Fin layout.houseNum) : Decidable (IsStart layout start) :=
  inferInstanceAs (Decidable (_ < _))

/-- A call that has not returned can take a step unless it has run past the end of its search
array. -/
def Enabled (s : State layout.houseNum (Fin layout.verticeNum)) (start : Fin layout.houseNum) : Prop :=
  IsStart layout start ∧ (s.call start).pc ≠ .returned ∧
    (s.call start).i < (s.call start).searchArray.length

instance (s : State layout.houseNum (Fin layout.verticeNum)) (start : Fin layout.houseNum) :
    Decidable (Enabled layout s start) :=
  inferInstanceAs (Decidable (_ ∧ _ ∧ _ < _))

variable (pruning : Bool)

/-- One step of the call for `start`, which is visiting `current`. -/
def stepAt (s : State layout.houseNum (Fin layout.verticeNum)) (start : Fin layout.houseNum)
    (c : Search layout.houseNum (Fin layout.verticeNum)) (current : Fin layout.verticeNum) :
    State layout.houseNum (Fin layout.verticeNum) :=
  match c.pc with
  | .visit => s.setCall start (c.visit layout pruning start current)
  | .recordDistance j =>
    { s with
      distanceToAll := Function.update s.distanceToAll start
        (Function.update (s.distanceToAll start) j (c.distance + 1)) }.setCall start
      (c.updateExtremes layout pruning current)
  | .testIMax q =>
    if q.val + 1 < layout.houseNum then
      if s.iMax q ≠ 0 then s.setCall start { c with pc := .testDistance q }
      else s.setCall start (c.nextQ layout current q)
    else s.setCall start (c.checkEnd layout current)
  | .testDistance q =>
    if s.distanceToAll q start ≠ 0 then s.setCall start { c with pc := .loadDistance q }
    else s.setCall start (c.nextQ layout current q)
  | .loadDistance q => s.setCall start { c with sum := s.distanceToAll q start, pc := .loadIMax q }
  | .loadIMax q => s.setCall start { c with sum := c.sum + s.iMax q, pc := .compareTotal q }
  | .compareTotal q =>
    if c.sum < s.totalMax then
      (s.setResult start (c.least + 1) (c.least + 1)).setCall start { c with pc := .returned }
    else s.setCall start (c.nextQ layout current q)
  | .compareMost =>
    (s.setResult start (c.least + 1) (c.most + 1)).setCall start
      { c with pc := if s.totalMax < c.most + 1 then .storeTotal else .storeIMax }
  | .storeTotal => { s with totalMax := c.most + 1 }.setCall start { c with pc := .storeIMax }
  | .storeIMax =>
    { s with iMax := Function.update s.iMax start (c.most + 1) }.setCall start
      { c with pc := .returned }
  | .returned => s

def effect (s : State layout.houseNum (Fin layout.verticeNum)) (start : Fin layout.houseNum) :
    State layout.houseNum (Fin layout.verticeNum) :=
  match (s.call start).searchArray[(s.call start).i]? with
  | none => s
  | some current => stepAt layout pruning s start (s.call start) current

/-- The calls for all start indices, interleaved in any order. -/
abbrev Step := Fires (Enabled layout) (effect layout pruning)

def AllReturned (s : State layout.houseNum (Fin layout.verticeNum)) : Prop :=
  ∀ start, IsStart layout start → (s.call start).pc = .returned

instance (s : State layout.houseNum (Fin layout.verticeNum)) : Decidable (AllReturned layout s) :=
  inferInstanceAs (Decidable (∀ _, _ → _))

/-! ### One call after another -/

/-- One call alone, for at most `fuel` steps. -/
def runSearch (fuel : ℕ) (s : State layout.houseNum (Fin layout.verticeNum))
    (start : Fin layout.houseNum) : State layout.houseNum (Fin layout.verticeNum) :=
  match fuel with
  | 0 => s
  | fuel + 1 =>
    if Enabled layout s start then runSearch fuel (effect layout pruning s start) start else s

/-- The indices `Search` is called with, in order. -/
def starts : List (Fin layout.houseNum) := (List.finRange layout.houseNum).filter (IsStart layout)

def searchInTurn (fuel : ℕ) : State layout.houseNum (Fin layout.verticeNum) :=
  (starts layout).foldl (runSearch layout pruning fuel) (initial layout)

/-! ### What `main` prints -/

def aggregateLeast (s : State layout.houseNum (Fin layout.verticeNum)) : ℕ :=
  (starts layout).foldl
    (fun least i => if s.distanceLeast i ≤ least then s.distanceLeast i else least) intMax

def aggregateMost (s : State layout.houseNum (Fin layout.verticeNum)) : ℕ :=
  (starts layout).foldl
    (fun most i => if most ≤ s.distanceMost i then s.distanceMost i else most) 0

/-- The two printed numbers are the least and the greatest distance of two distinct houses. -/
def RightAnswer (s : State layout.houseNum (Fin layout.verticeNum)) : Prop :=
  IsLeast layout.pairDistances (aggregateLeast layout s) ∧
    IsGreatest layout.pairDistances (aggregateMost layout s)

end System

end Multicore.Houses
