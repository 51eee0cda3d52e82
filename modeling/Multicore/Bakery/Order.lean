import Multicore.Bakery.Exclusion

/-!
# First come, first served

A request that begins after thread `i` has lowered `choosing[i]` scans a ticket of `i` that is already
there, so it draws a larger one and has to wait for `i`. What other threads draw and give back in the
meantime does not matter: the facts about the scan of `j` are the ones the exclusion rests on.
-/

namespace Multicore.Bakery

variable {n : ℕ} {s : State n} {i j t : Fin n}

/-- The request of `j` is behind the one of `i`: the ticket `j` draws, or has drawn, is larger. -/
def Behind (s : State n) (i j : Fin n) : Prop :=
  Doorway s i j ∧ ((s.pc j).behindDoorway → s.number i < s.number j)

/-- Until it returns, the waiting thread stays behind its doorway. -/
theorem behindDoorway_effect (hi : (s.pc i).behindDoorway) (hwait : s.pc i ≠ .critical) :
    ((effect s t).pc i).behindDoorway := by
  by_cases hit : i = t
  · subst hit
    cases hpc : s.pc i with
    | critical => exact absurd hpc hwait
    | waitChoosing k | testLess k =>
      simp only [effect, hpc, setPc_pc_self]
      split <;> trivial
    | testZero k | testEqual k =>
      simp only [effect, hpc, setPc_pc_self]
      split
      · trivial
      · exact Pc.behindDoorway_of_sawChosen (sawChosen_afterWait.mpr le_rfl)
    | _ => simp [hpc, Pc.behindDoorway] at hi
  · rwa [effect_pc_of_ne hit]

theorem number_effect_of_waiting (hi : (s.pc i).behindDoorway) (hwait : s.pc i ≠ .critical) :
    (effect s t).number i = s.number i := by
  by_cases hit : i = t
  · subst hit
    exact effect_number_self (fun numMax hpc => by simp [hpc, Pc.behindDoorway] at hi) hwait
  · exact effect_number_of_ne hit

/-- A thread that is behind its doorway now was there before, or has just lowered its entry. -/
theorem behindDoorway_of_effect (hj : ((effect s j).pc j).behindDoorway) :
    ((s.pc j).behindDoorway ∨ s.pc j = .clearChoosing) ∧ s.pc j ≠ .critical := by
  cases hpc : s.pc j with
  | maxTest k numMax =>
    simp only [effect, hpc, setPc_pc_self] at hj
    split at hj
    · exact hj.elim
    · exact absurd (Pc.hasTicket_of_behindDoorway hj) not_hasTicket_afterScan
  | maxRead k =>
    simp only [effect, hpc, setPc_pc_self] at hj
    exact absurd (Pc.hasTicket_of_behindDoorway hj) not_hasTicket_afterScan
  | clearChoosing => exact ⟨.inr rfl, by simp⟩
  | waitChoosing k | testZero k | testLess k | testEqual k => exact ⟨.inl trivial, by simp⟩
  | _ =>
    simp only [effect, hpc, setPc_pc_self] at hj
    exact hj.elim

theorem behind_effect (hinv : Inv s) (hij : i ≠ j) (hi : (s.pc i).behindDoorway)
    (hwait : s.pc i ≠ .critical) (hbehind : Behind s i j) : Behind (effect s t) i j := by
  have hkeep : (effect s t).number i = s.number i := number_effect_of_waiting hi hwait
  refine ⟨doorway_effect hinv hij hi hkeep hbehind.1, fun hj => ?_⟩
  rw [hkeep]
  by_cases hjt : j = t
  · subst hjt
    obtain ⟨hold | hpc, hnot⟩ := behindDoorway_of_effect hj
    · rw [number_effect_of_waiting hold hnot]
      exact hbehind.2 hold
    · have hdoor := hbehind.1
      simp only [Doorway, hpc] at hdoor
      rwa [effect_number_self (by simp [hpc]) hnot]
  · rw [effect_pc_of_ne hjt] at hj
    rw [effect_number_of_ne hjt]
    exact hbehind.2 hj

/-- A thread behind a waiting one has not returned. -/
theorem Behind.not_critical (hinv : Inv s) (hij : i ≠ j) (hi : (s.pc i).behindDoorway)
    (hbehind : Behind s i j) : s.pc j ≠ .critical := by
  intro hj
  have hlt := hbehind.2 (by rw [hj]; trivial)
  have hne := (hinv.ticket i).mpr (Pc.hasTicket_of_behindDoorway hi)
  have hle := (hinv.passed j i hij.symm (by rw [hj]; trivial) hne).le
  omega

/-- Along a run in which `i` waits, what is known about `i` and about a request behind it is kept. -/
theorem waiting_run {s' : State n} {trace : List (Fin n)}
    (hrun : Run (Restrict Step fun s _ => s.pc i ≠ .critical) s trace s') (hinv : Inv s)
    (hi : (s.pc i).behindDoorway) :
    Inv s' ∧ (s'.pc i).behindDoorway ∧ (i ≠ j → Behind s i j → Behind s' i j) := by
  induction hrun with
  | nil => exact ⟨hinv, hi, fun _ h => h⟩
  | cons _ hstep ih =>
    obtain ⟨hinv', hi', hkeep⟩ := ih
    rw [hstep.1.2]
    exact ⟨inv_effect hinv', behindDoorway_effect hi' hstep.2,
      fun hij h => behind_effect hinv' hij hi' hstep.2 (hkeep hij h)⟩

/-- If thread `i` lowers `choosing[i]` before thread `j` raises `choosing[j]`, then by the time `j`
has returned from that call of `bakery_lock`, `i` has returned from its own. -/
theorem first_come_first_served {s₀ s₁ s₂ : State n} {earlier middle later : List (Fin n)}
    (hrun : Run Step (initial n) earlier s₀) (hchosen : s₀.pc i = .clearChoosing)
    (hmiddle : Run Step (effect s₀ i) middle s₁) (hbegin : s₁.pc j = .setChoosing)
    (hlater : Run Step (effect s₁ j) later s₂) (hserved : s₂.pc j = .critical) :
    Run.MetBefore Step (effect s₀ i) (later ++ j :: middle) fun s => s.pc i = .critical := by
  have hchosen' : ((effect s₀ i).pc i).behindDoorway := by
    simp [effect, hchosen, Pc.behindDoorway]
  rcases hmiddle.metBefore_or_restrict (fun s => s.pc i = .critical) with hmet | hmiddle'
  · exact (hmet.append_left [j]).append_left later
  obtain ⟨hinv₁, hi₁, -⟩ := waiting_run (j := j) hmiddle' (inv_effect (inv_of_run hrun)) hchosen'
  by_cases hin : s₁.pc i = .critical
  · exact Run.MetBefore.append_left ⟨middle, j, [], s₁, rfl, hmiddle, hin⟩ later
  -- Now `i` still waits when `j` begins, so the two are different threads.
  have hij : i ≠ j := by
    rintro rfl
    rw [hbegin] at hi₁
    exact hi₁
  have hbehind : Behind s₁ i j := by simp [Behind, Doorway, hbegin, Pc.behindDoorway]
  have hfirst : Run Step (effect s₀ i) (j :: middle) (effect s₁ j) := .cons hmiddle ⟨trivial, rfl⟩
  rcases hlater.metBefore_or_restrict (fun s => s.pc i = .critical) with hmet | hlater'
  · exact Run.MetBefore.append_right hfirst hmet
  obtain ⟨hinv₂, hi₂, hkeep⟩ :=
    waiting_run (j := j) hlater' (inv_effect hinv₁) (behindDoorway_effect hi₁ hin)
  have hnot := (hkeep hij (behind_effect hinv₁ hij hi₁ hin hbehind)).not_critical hinv₂ hij hi₂
  exact absurd hserved hnot

/-- After these steps the first thread is about to lower its entry. -/
def firstDoorway : List (Fin 2) := [0, 0, 0, 0, 0]

def ticketDrawn : State 2 := execute effect (initial 2) firstDoorway

/-- The second thread draws a ticket and goes round its loop once, the first one passes its tests and
unlocks, the second one passes as well. -/
def inTurn : List (Fin 2) :=
  [1, 1, 1, 1, 1, 1, 1, 1, 0, 0, 0, 0, 0, 0, 0, 0, 0, 1, 1, 1, 1, 1]

theorem first_come_first_served_inTurn :
    Run.MetBefore Step (effect ticketDrawn 0) (inTurn.reverse ++ 1 :: [1])
      fun s => s.pc 0 = .critical := by
  have hrun : Run Step (initial 2) firstDoorway.reverse ticketDrawn :=
    run_execute (by decide +kernel)
  have hmiddle : Run Step (effect ticketDrawn 0) [1] (effect (effect ticketDrawn 0) 1) :=
    .cons .nil ⟨trivial, rfl⟩
  have hlater : Run Step (effect (effect (effect ticketDrawn 0) 1) 1) inTurn.reverse
      (execute effect (effect (effect (effect ticketDrawn 0) 1) 1) inTurn) :=
    run_execute (by decide +kernel)
  exact first_come_first_served hrun (by decide +kernel) hmiddle (by decide +kernel) hlater
    (by decide +kernel)

end Multicore.Bakery
