import Mathlib.Data.Fin.Basic
import Mathlib.Logic.Function.Basic
import Multicore.Base.Run

/-!
# The bakery lock

`bakery_lock`, `BakeryMax` and `bakery_unlock` of `Project2.cpp`. The two arrays are shared, so every
read and every write of an entry of another thread is a step of its own: `BakeryMax` reads a ticket
once to compare it and once more to keep it, and the test of the second waiting loop reads the other
ticket up to three times. A thread's own entries are written by itself only, so where its own ticket is
compared with another one the two reads go together.

The tickets are unbounded. No step ever blocks: a thread that has to wait repeats its test.
-/

namespace Multicore.Bakery

variable {n : ℕ}

/-- Where a thread is; each constructor names the next action. The scan of `BakeryMax` carries
`num_max`. -/
inductive Pc (n : ℕ) where
  | idle
  | setChoosing
  | maxTest (k : Fin n) (numMax : ℕ)
  | maxRead (k : Fin n)
  | writeNumber (numMax : ℕ)
  | clearChoosing
  | waitChoosing (j : Fin n)
  | testZero (j : Fin n)
  | testLess (j : Fin n)
  | testEqual (j : Fin n)
  | critical
  deriving DecidableEq, Repr

structure State (n : ℕ) where
  choosing : Fin n → Bool
  number : Fin n → ℕ
  pc : Fin n → Pc n

/-- `main` clears both arrays before it creates the threads. -/
def initial (n : ℕ) : State n := ⟨fun _ => false, fun _ => 0, fun _ => .idle⟩

/-- Both loops over the threads start at index 0. -/
def firstIndex (i : Fin n) : Fin n := ⟨0, i.pos⟩

/-- The loop of `BakeryMax` goes on after index `k`. -/
def afterScan (k : Fin n) (numMax : ℕ) : Pc n :=
  if h : k.val + 1 < n then .maxTest ⟨k.val + 1, h⟩ numMax else .writeNumber numMax

/-- The loop of `bakery_lock` goes on after thread `j`. -/
def afterWait (j : Fin n) : Pc n :=
  if h : j.val + 1 < n then .waitChoosing ⟨j.val + 1, h⟩ else .critical

def State.setPc (s : State n) (i : Fin n) (pc : Pc n) : State n :=
  { s with pc := Function.update s.pc i pc }

/-- The next action of thread `i`. -/
def effect (s : State n) (i : Fin n) : State n :=
  match s.pc i with
  | .idle => s.setPc i .setChoosing
  | .setChoosing =>
    { s with choosing := Function.update s.choosing i true }.setPc i (.maxTest (firstIndex i) 0)
  | .maxTest k numMax =>
    s.setPc i (if numMax < s.number k then .maxRead k else afterScan k numMax)
  | .maxRead k => s.setPc i (afterScan k (s.number k))
  | .writeNumber numMax =>
    { s with number := Function.update s.number i (numMax + 1) }.setPc i .clearChoosing
  | .clearChoosing =>
    { s with choosing := Function.update s.choosing i false }.setPc i (.waitChoosing (firstIndex i))
  | .waitChoosing j => s.setPc i (if s.choosing j then .waitChoosing j else .testZero j)
  | .testZero j => s.setPc i (if s.number j ≠ 0 then .testLess j else afterWait j)
  | .testLess j => s.setPc i (if s.number j < s.number i then .testZero j else .testEqual j)
  | .testEqual j =>
    s.setPc i (if s.number j = s.number i ∧ j < i then .testZero j else afterWait j)
  -- `bakery_unlock`
  | .critical => { s with number := Function.update s.number i 0 }.setPc i .idle

abbrev Step : State n → Fin n → State n → Prop := Fires (fun _ _ => True) effect

/-! ### What a step leaves alone -/

section Frame

variable {s : State n} {i t : Fin n}

@[simp] theorem setPc_pc_self {pc : Pc n} : (s.setPc i pc).pc i = pc := Function.update_self ..

@[simp] theorem setPc_number {pc : Pc n} : (s.setPc i pc).number = s.number := rfl

@[simp] theorem setPc_choosing {pc : Pc n} : (s.setPc i pc).choosing = s.choosing := rfl

theorem effect_pc_of_ne (hne : i ≠ t) : (effect s t).pc i = s.pc i := by
  cases hpc : s.pc t <;> simp [effect, hpc, State.setPc, hne]

theorem effect_number_of_ne (hne : i ≠ t) : (effect s t).number i = s.number i := by
  cases hpc : s.pc t <;> simp [effect, hpc, hne]

theorem effect_choosing_of_ne (hne : i ≠ t) : (effect s t).choosing i = s.choosing i := by
  cases hpc : s.pc t <;> simp [effect, hpc, hne]

/-- A thread writes its ticket in two places only. -/
theorem effect_number_self (hwrite : ∀ numMax, s.pc i ≠ .writeNumber numMax)
    (hunlock : s.pc i ≠ .critical) : (effect s i).number i = s.number i := by
  cases hpc : s.pc i <;> simp_all [effect]

end Frame

end Multicore.Bakery
