import Mathlib.Data.Finset.Max
import Mathlib.Data.Fintype.Basic
import Mathlib.Data.Prod.Lex
import Multicore.Bakery.Exclusion

/-!
# No stuck state

A thread waits for another one for two reasons, and neither makes a cycle: a thread that is choosing
waits for nobody, and among threads that have their tickets the one that is served first waits for
nobody either.

The test of the second loop takes several steps, so a thread may be in the middle of it when the
ticket it waits for is given back. It then finishes that round and leaves the loop in the next one.
-/

namespace Multicore.Bakery

variable {n : ℕ} {s : State n} {i j : Fin n}

/-- A waiting loop of `bakery_lock`. -/
inductive Loop (n : ℕ) where
  /-- `while (g_bakery_choosing[j])` -/
  | choosing (j : Fin n)
  /-- `while ((g_bakery_number[j] != 0) && ...)` -/
  | number (j : Fin n)
  deriving DecidableEq, Repr

/-- The waiting loop a thread is in. -/
def Pc.loop? : Pc n → Option (Loop n)
  | .waitChoosing j => some (.choosing j)
  | .testZero j | .testLess j | .testEqual j => some (.number j)
  | _ => none

/-- The condition of a waiting loop of thread `i`, on the values the arrays hold. -/
def Loop.Condition (s : State n) (i : Fin n) : Loop n → Prop
  | .choosing j => s.choosing j = true
  | .number j => s.number j ≠ 0 ∧ Before s j i

/-- Thread `i` is in a waiting loop and the condition of the loop holds: its steps repeat the failing
test. -/
def Repeats (s : State n) (i : Fin n) : Prop :=
  ∃ loop, (s.pc i).loop? = some loop ∧ loop.Condition s i

theorem loop?_afterWait : (afterWait j).loop? ≠ some (.number j) := by
  unfold afterWait
  split <;> simp [Pc.loop?]

/-! ### Leaving a loop -/

theorem pc_effect_testEqual (hpc : s.pc i = .testEqual j)
    (htest : ¬ (s.number j = s.number i ∧ j < i)) : (effect s i).pc i = afterWait j := by
  simp [effect, hpc, htest]

theorem pc_effect_testLess (hpc : s.pc i = .testLess j) (hnot : ¬ Before s j i) :
    (effect (effect s i) i).pc i = afterWait j := by
  have htest : ¬ s.number j < s.number i := fun h => hnot (.inl h)
  have hstep : effect s i = s.setPc i (.testEqual j) := by simp [effect, hpc, htest]
  rw [hstep]
  exact pc_effect_testEqual setPc_pc_self fun h => hnot (.inr h)

theorem pc_effect_testZero (hpc : s.pc i = .testZero j) (hzero : s.number j = 0) :
    (effect s i).pc i = afterWait j := by
  simp [effect, hpc, hzero]

theorem Inv.number_ne_zero_of_loop (hinv : Inv s) {loop : Loop n}
    (hloop : (s.pc i).loop? = some loop) : s.number i ≠ 0 := by
  apply (hinv.ticket i).mpr
  cases hpc : s.pc i with
  | waitChoosing | testZero | testLess | testEqual => trivial
  | _ => simp [hpc, Pc.loop?] at hloop

/-- Where the condition of its loop does not hold, a thread alone is out of the loop after three steps
at most. -/
theorem leaves_loop (hinv : Inv s) (hnot : ¬ Repeats s i) {loop : Loop n}
    (hloop : (s.pc i).loop? = some loop) :
    ∃ steps ≤ 3, (((effect · i)^[steps] s).pc i).loop? ≠ some loop := by
  have hcond : ¬ loop.Condition s i := fun h => hnot ⟨loop, hloop, h⟩
  cases hpc : s.pc i with
  | waitChoosing j =>
    obtain rfl : Loop.choosing j = loop := by simpa [hpc, Pc.loop?] using hloop
    have hdown : s.choosing j = false := by simpa [Loop.Condition] using hcond
    exact ⟨1, by omega, by simp [effect, hpc, hdown, Pc.loop?]⟩
  | testZero j =>
    obtain rfl : Loop.number j = loop := by simpa [hpc, Pc.loop?] using hloop
    by_cases hzero : s.number j = 0
    · refine ⟨1, by omega, ?_⟩
      rw [Function.iterate_one, pc_effect_testZero hpc hzero]
      exact loop?_afterWait
    · have hnot : ¬ Before s j i := fun h => hcond ⟨hzero, h⟩
      have hstep : effect s i = s.setPc i (.testLess j) := by simp [effect, hpc, hzero]
      refine ⟨3, le_rfl, ?_⟩
      have hpc' : ((effect · i)^[3] s).pc i = afterWait j := by
        simp only [Function.iterate_succ_apply, Function.iterate_zero_apply, hstep]
        exact pc_effect_testLess setPc_pc_self hnot
      rw [hpc']
      exact loop?_afterWait
  | testLess j =>
    obtain rfl : Loop.number j = loop := by simpa [hpc, Pc.loop?] using hloop
    refine ⟨2, by omega, ?_⟩
    have hpc' : ((effect · i)^[2] s).pc i = afterWait j := by
      simp only [Function.iterate_succ_apply, Function.iterate_zero_apply]
      by_cases hzero : s.number j = 0
      · have hpos : 0 < s.number i := Nat.pos_of_ne_zero (hinv.number_ne_zero_of_loop hloop)
        have hstep : effect s i = s.setPc i (.testZero j) := by simp [effect, hpc, hzero, hpos]
        rw [hstep]
        exact pc_effect_testZero setPc_pc_self hzero
      · exact pc_effect_testLess hpc fun h => hcond ⟨hzero, h⟩
    rw [hpc']
    exact loop?_afterWait
  | testEqual j =>
    obtain rfl : Loop.number j = loop := by simpa [hpc, Pc.loop?] using hloop
    refine ⟨1, by omega, ?_⟩
    rw [Function.iterate_one, pc_effect_testEqual hpc]
    · exact loop?_afterWait
    · have hne := hinv.number_ne_zero_of_loop hloop
      rintro ⟨heq, hlt⟩
      exact hcond ⟨by omega, .inr ⟨heq, hlt⟩⟩
  | _ => simp [hpc, Pc.loop?] at hloop

/-- A failing test is repeated, and the next one fails as well. -/
theorem condition_effect (hinv : Inv s) {loop : Loop n} (hloop : (s.pc i).loop? = some loop)
    (hcond : loop.Condition s i) :
    ((effect s i).pc i).loop? = some loop ∧ loop.Condition (effect s i) i := by
  -- None of the steps in a loop writes, so only the place in the loop changes.
  have hkeep : ∀ pc : Pc n, pc.loop? = some loop → effect s i = s.setPc i pc →
      ((effect s i).pc i).loop? = some loop ∧ loop.Condition (effect s i) i := by
    intro pc hpc hstep
    rw [hstep, setPc_pc_self]
    exact ⟨hpc, hcond⟩
  cases hpc : s.pc i with
  | waitChoosing j =>
    obtain rfl : Loop.choosing j = loop := by simpa [hpc, Pc.loop?] using hloop
    have hup : s.choosing j = true := hcond
    exact hkeep (.waitChoosing j) rfl (by simp [effect, hpc, hup])
  | testZero j =>
    obtain rfl : Loop.number j = loop := by simpa [hpc, Pc.loop?] using hloop
    exact hkeep (.testLess j) rfl (by simp [effect, hpc, hcond.1])
  | testLess j =>
    obtain rfl : Loop.number j = loop := by simpa [hpc, Pc.loop?] using hloop
    by_cases hlt : s.number j < s.number i
    · exact hkeep (.testZero j) rfl (by simp [effect, hpc, hlt])
    · exact hkeep (.testEqual j) rfl (by simp [effect, hpc, hlt])
  | testEqual j =>
    obtain rfl : Loop.number j = loop := by simpa [hpc, Pc.loop?] using hloop
    have htest : s.number j = s.number i ∧ j < i := by
      obtain ⟨hne, hbefore⟩ := hcond
      have hle := hinv.notLess i j hpc
      unfold Before at hbefore
      omega
    exact hkeep (.testZero j) rfl (by simp [effect, hpc, htest])
  | _ => simp [hpc, Pc.loop?] at hloop

/-- A thread repeats its test exactly if it never leaves its loop while no other thread steps. -/
theorem repeats_iff (hinv : Inv s) {loop : Loop n} (hloop : (s.pc i).loop? = some loop) :
    Repeats s i ↔ ∀ steps, (((effect · i)^[steps] s).pc i).loop? = some loop := by
  constructor
  · rintro ⟨loop', hloop', hcond⟩ steps
    rw [Option.some.inj (hloop'.symm.trans hloop)] at hcond
    clear hloop'
    induction steps generalizing s with
    | zero => exact hloop
    | succ steps ih =>
      obtain ⟨hstay, hcond'⟩ := condition_effect hinv hloop hcond
      exact ih (inv_effect hinv) hstay hcond'
  · intro hstay
    by_contra hnot
    obtain ⟨steps, -, hleft⟩ := leaves_loop hinv hnot hloop
    exact hleft (hstay steps)

/-! ### The thread that is served first -/

/-- Where all threads repeat their tests no thread is choosing, so each waits for one that is served
before it. -/
theorem waits_for_before (hinv : Inv s) (hall : ∀ i, s.pc i ≠ .idle → Repeats s i)
    (hi : s.pc i ≠ .idle) : ∃ j, s.pc j ≠ .idle ∧ Before s j i := by
  obtain ⟨loop, hloop, hcond⟩ := hall i hi
  cases loop with
  | choosing j =>
    have hdoor := (hinv.choosing j).mp hcond
    obtain ⟨loop, hloop', -⟩ := hall j (by rintro hpc; simp [hpc, Pc.inDoorway] at hdoor)
    cases hpc : s.pc j <;> simp_all [Pc.inDoorway, Pc.loop?]
  | number j =>
    have hticket := (hinv.ticket j).mp hcond.1
    exact ⟨j, by rintro hpc; simp [hpc, Pc.hasTicket] at hticket, hcond.2⟩

theorem exists_not_repeats (hinv : Inv s) (hi : s.pc i ≠ .idle) :
    ∃ j, s.pc j ≠ .idle ∧ ¬ Repeats s j := by
  by_contra! hall
  obtain ⟨first, hfirst, hleast⟩ := Finset.exists_min_image
    (Finset.univ.filter fun i => s.pc i ≠ .idle) (fun i => toLex (s.number i, i))
    ⟨i, by simpa using hi⟩
  obtain ⟨j, hj, hbefore⟩ := waits_for_before hinv hall (by simpa using hfirst)
  have hle := hleast j (by simpa using hj)
  simp only [Prod.Lex.toLex_le_toLex] at hle
  unfold Before at hbefore
  omega

/-- Wherever some thread is inside `bakery_lock` or holds the lock, such a thread has a next step that
does not repeat a failing test; if it is in a waiting loop, three steps of its own bring it out. -/
theorem no_stuck_state {trace : List (Fin n)} (hrun : Run Step (initial n) trace s)
    (hinside : ∃ i, s.pc i ≠ .idle) :
    ∃ i, s.pc i ≠ .idle ∧ ¬ Repeats s i ∧ ∀ loop, (s.pc i).loop? = some loop →
      ∃ steps ≤ 3, (((effect · i)^[steps] s).pc i).loop? ≠ some loop := by
  have hinv := inv_of_run hrun
  obtain ⟨_, hi⟩ := hinside
  obtain ⟨j, hj, hnot⟩ := exists_not_repeats hinv hi
  exact ⟨j, hj, hnot, fun _ hloop => leaves_loop hinv hnot hloop⟩

theorem no_stuck_state_equalTickets :
    ∃ i, (execute effect (initial 2) equalTickets).pc i ≠ .idle ∧
      ¬ Repeats (execute effect (initial 2) equalTickets) i ∧
      ∀ loop, ((execute effect (initial 2) equalTickets).pc i).loop? = some loop →
        ∃ steps ≤ 3,
          (((effect · i)^[steps] (execute effect (initial 2) equalTickets)).pc i).loop? ≠ some loop := by
  have hrun : Run Step (initial 2) equalTickets.reverse (execute effect (initial 2) equalTickets) :=
    run_execute (by decide +kernel)
  exact no_stuck_state hrun ⟨1, by decide +kernel⟩

end Multicore.Bakery
