import Multicore.BufPool.Threads

/-!
# What buffer pool creation returns

The result of `RunThread` is discarded at the join, so an initialisation that fails shows itself only
in the null `buf_pool_ptr` its clean-up leaves behind: `buf_pool_set_sizes` then reads an instance
through it and the process crashes. A thread that `pthread_create` cannot start is not noticed at all,
since its error numbers are positive. `buf_pool_init` therefore never returns `DB_ERROR`, and it
returns what the single-threaded loop would return only where nothing fails.
-/

namespace Multicore.BufPool

variable {n : ℕ} {calls : Calls n} {s : State n} {i : Fin n}

/-- What creating the buffer pool has to return: an instance whose thread was not started is not
initialised, and otherwise the answer is that of the single-threaded loop. -/
def required (calls : Calls n) : DbErr :=
  if ∀ i, calls.createResult i = 0 then singleThreaded (List.ofFn calls.initOutcome) else .error

def AllSucceed (calls : Calls n) : Prop :=
  ∀ i, calls.createResult i = 0 ∧ calls.initOutcome i = .success

instance (calls : Calls n) : Decidable (AllSucceed calls) :=
  inferInstanceAs (Decidable (∀ i, calls.createResult i = 0 ∧ calls.initOutcome i = .success))

theorem singleThreaded_eq_success_iff {outcomes : List InitOutcome} :
    singleThreaded outcomes = .success ↔ ∀ outcome ∈ outcomes, outcome = .success := by
  induction outcomes with
  | nil => simp [singleThreaded]
  | cons outcome rest ih => by_cases h : outcome = .success <;> simp [singleThreaded, h, ih]

theorem required_eq_success_iff : required calls = .success ↔ AllSucceed calls := by
  unfold required AllSucceed
  by_cases hcreate : ∀ i, calls.createResult i = 0
  · simp [hcreate, singleThreaded_eq_success_iff, List.mem_ofFn]
  · simp only [hcreate, if_false, reduceCtorEq, false_iff]
    exact fun h => hcreate fun i => (h i).1

/-! ### Every run ends -/

/-- How many actions a thread has left at most. -/
def Pc.rank (n : ℕ) : Pc → ℕ
  | .unborn => 2 * n + 10
  | .index => 2 * n + 9
  | .init => 2 * n + 8
  | .freeSlot => 2 * n + 7
  | .test => 2 * n + 6
  | .loadSlot k => 2 * (n - k) + 5
  | .freeInstance k => 2 * (n - k) + 4
  | .loadArray => 3
  | .freeArray => 2
  | .setNull => 1
  | .done => 0

def MainPc.rank (n : ℕ) : MainPc → ℕ
  | .create i => (n - i) + n + 4
  | .join i => (n - i) + 2
  | .setSizes => 1
  | .returned _ => 0

def rank (s : State n) : ℕ :=
  (if s.crashed then 0 else 1) + s.main.rank n + ∑ i, (s.pc i).rank n

theorem rank_freeFrom (i : Fin n) (k : ℕ) : (freeFrom i k).rank n ≤ 2 * (n - k) + 5 := by
  unfold freeFrom
  split <;> simp [Pc.rank]

/-- A step of a thread crashes the process or moves the thread forward. -/
theorem threadStep_progress (calls : Calls n) (hborn : s.pc i ≠ .unborn) (hdone : s.pc i ≠ .done) :
    ((threadStep calls s i).crashed = true ∧ (threadStep calls s i).pc i = s.pc i) ∨
      ((threadStep calls s i).crashed = s.crashed ∧
        ((threadStep calls s i).pc i).rank n < (s.pc i).rank n) := by
  cases hpc : s.pc i with
  | unborn => exact absurd hpc hborn
  | done => exact absurd hpc hdone
  | index | loadSlot k | loadArray =>
    by_cases hnull : s.isNull <;>
      simp [threadStep, hpc, hnull, State.indexNull, State.setPc, Pc.rank]
  | init => cases hout : calls.initOutcome i <;> simp [threadStep, hpc, hout, State.setPc, Pc.rank]
  | freeSlot | freeArray | setNull => simp [threadStep, hpc, State.setPc, Pc.rank]
  | test =>
    have hle := rank_freeFrom i 0
    by_cases hout : calls.initOutcome i = .success
    · simp [threadStep, hpc, hout, State.setPc, Pc.rank]
    · right
      simp only [threadStep, hpc, hout, State.setPc, if_false, Function.update_self, true_and]
      exact Nat.lt_succ_of_le hle
  | freeInstance k =>
    right
    simp only [threadStep, hpc, State.setPc, Function.update_self, true_and]
    unfold freeFrom
    split <;> simp only [Pc.rank] <;> omega

theorem rank_threadStep (henabled : Enabled s (.thread i)) : rank (threadStep calls s i) < rank s := by
  obtain ⟨hcrashed, hborn, hdone⟩ := henabled
  have hothers : ∀ j ≠ i, ((threadStep calls s i).pc j).rank n = (s.pc j).rank n :=
    fun j hne => by rw [threadStep_pc_of_ne hne]
  unfold rank
  rw [threadStep_main, hcrashed]
  rcases threadStep_progress calls hborn hdone with ⟨hcrash, hsame⟩ | ⟨hkeep, hlt⟩
  · have hsum : ∑ j, ((threadStep calls s i).pc j).rank n = ∑ j, (s.pc j).rank n := by
      apply Finset.sum_congr rfl
      intro j _
      by_cases hne : j = i
      · rw [hne, hsame]
      · exact hothers j hne
    simp [hcrash, hsum]
  · have hsum : ∑ j, ((threadStep calls s i).pc j).rank n < ∑ j, (s.pc j).rank n := by
      refine Finset.sum_lt_sum (fun j _ => ?_) ⟨i, Finset.mem_univ i, hlt⟩
      by_cases hne : j = i
      · rw [hne]
        exact hlt.le
      · exact (hothers j hne).le
    rw [hkeep, hcrashed]
    omega

theorem rank_startThread_pc (hunborn : s.pc i = .unborn) (j : Fin n) :
    ((startThread calls s i).pc j).rank n ≤ (s.pc j).rank n := by
  by_cases hne : j = i
  · subst hne
    unfold startThread
    split <;> simp [hunborn, Pc.rank]
  · rw [startThread_pc_of_ne hne]

theorem startThread_crashed : (startThread calls s i).crashed = s.crashed := by
  unfold startThread
  split <;> rfl

theorem rank_mainStep (hinv : Inv s) (henabled : Enabled s .main) : rank (mainStep calls s) < rank s := by
  obtain ⟨hcrashed, hcan⟩ := henabled
  cases hmain : s.main with
  | create k =>
    by_cases hlt : k < n
    · rw [mainStep_create hmain hlt]
      have hsum : ∑ j, ((startThread calls s ⟨k, hlt⟩).pc j).rank n ≤ ∑ j, (s.pc j).rank n :=
        Finset.sum_le_sum fun j _ => rank_startThread_pc (hinv.unborn k hmain _ le_rfl) j
      simp only [rank, startThread_crashed, hmain, MainPc.rank]
      omega
    · simp [mainStep, hmain, hlt, rank, MainPc.rank]
      omega
  | join k =>
    by_cases hlt : k < n
    · simp only [mainStep, hmain, hlt, if_true, rank, MainPc.rank]
      omega
    · simp [mainStep, hmain, hlt, rank, MainPc.rank]
  | setSizes =>
    by_cases hnull : s.isNull ∧ 0 < n <;> simp [mainStep, hmain, hnull, rank, MainPc.rank, hcrashed]
  | returned r => simp [hmain, CanStep] at hcan

theorem rank_of_step {trace : List (Event n)} {e : Event n} {s' : State n}
    (hrun : Run (Step calls) (initial n) trace s) (hstep : Step calls s e s') : rank s' < rank s := by
  obtain ⟨henabled, rfl⟩ := hstep
  cases e with
  | main => exact rank_mainStep (inv_of_run hrun) henabled
  | thread i => exact rank_threadStep henabled

/-! ### Runs in which nothing fails -/

/-- The places of a thread whose initialisation succeeds. -/
def Pc.succeeding : Pc → Prop
  | .unborn | .index | .init | .test | .done => True
  | _ => False

structure Quiet (s : State n) : Prop where
  pc : ∀ i, (s.pc i).succeeding
  notNull : s.isNull = false
  running : s.crashed = false

theorem quiet_setPc (hquiet : Quiet s) {pc : Pc} (hpc : pc.succeeding) : Quiet (s.setPc i pc) := by
  refine ⟨fun j => ?_, hquiet.notNull, hquiet.running⟩
  by_cases hne : j = i
  · simpa [hne] using hpc
  · simpa [hne] using hquiet.pc j

theorem quiet_threadStep (hok : AllSucceed calls) (hquiet : Quiet s) :
    Quiet (threadStep calls s i) := by
  have hsucc := hquiet.pc i
  cases hpc : s.pc i with
  | unborn | done =>
    have hsame : threadStep calls s i = s := by simp [threadStep, hpc]
    rwa [hsame]
  | index =>
    have hstep : threadStep calls s i = s.setPc i .init := by simp [threadStep, hpc, hquiet.notNull]
    rw [hstep]
    exact quiet_setPc hquiet trivial
  | init =>
    have hstep : threadStep calls s i = s.setPc i .test := by simp [threadStep, hpc, (hok i).2]
    rw [hstep]
    exact quiet_setPc hquiet trivial
  | test =>
    have hstep : threadStep calls s i = s.setPc i .done := by simp [threadStep, hpc, (hok i).2]
    rw [hstep]
    exact quiet_setPc hquiet trivial
  | _ => simp [hpc, Pc.succeeding] at hsucc

theorem quiet_main (hquiet : Quiet s) (pc : MainPc) : Quiet { s with main := pc } :=
  ⟨hquiet.pc, hquiet.notNull, hquiet.running⟩

theorem quiet_mainStep (hok : AllSucceed calls) (hquiet : Quiet s) : Quiet (mainStep calls s) := by
  cases hmain : s.main with
  | create k =>
    by_cases hlt : k < n
    · rw [mainStep_create hmain hlt]
      apply quiet_main
      simp only [startThread, (hok _).1, if_true]
      exact quiet_setPc hquiet trivial
    · simpa [mainStep, hmain, hlt] using quiet_main hquiet _
  | join k => by_cases hlt : k < n <;> simpa [mainStep, hmain, hlt] using quiet_main hquiet _
  | setSizes => simpa [mainStep, hmain, hquiet.notNull] using quiet_main hquiet _
  | returned r => simpa [mainStep, hmain] using hquiet

theorem quiet_of_run (hok : AllSucceed calls) {trace : List (Event n)}
    (hrun : Run (Step calls) (initial n) trace s) : Quiet s := by
  refine hrun.invariant (P := fun _ s => Quiet s) ⟨fun _ => trivial, rfl, rfl⟩
    fun _ s e s' _ hquiet hstep => ?_
  rw [hstep.2]
  cases e with
  | main => exact quiet_mainStep hok hquiet
  | thread i => exact quiet_threadStep hok hquiet

/-- Where the process has not crashed and nothing can step any more, `buf_pool_init` has returned. -/
theorem returned_success_of_final (hinv : Inv s) (hrunning : s.crashed = false)
    (hfinal : ∀ e, ¬ Enabled s e) : s.main = .returned .success := by
  have hstuck : ¬ CanStep s s.main := fun h => hfinal .main ⟨hrunning, h⟩
  cases hmain : s.main with
  | create k => simp [hmain, CanStep] at hstuck
  | setSizes => simp [hmain, CanStep] at hstuck
  | join k =>
    -- The thread that is waited for has a step.
    rw [hmain] at hstuck
    simp only [CanStep, not_forall, not_or] at hstuck
    obtain ⟨j, -, hborn, hdone⟩ := hstuck
    exact absurd ⟨hrunning, hborn, hdone⟩ (hfinal (.thread j))
  | returned r =>
    cases r with
    | success => rfl
    | error => exact absurd hmain hinv.noError

/-! ### The answer -/

/-- Every run ends, and where it ends `buf_pool_init` has returned `result`. -/
def Returns (calls : Calls n) (result : DbErr) : Prop :=
  (∃ bound, ∀ trace s, Run (Step calls) (initial n) trace s → trace.length ≤ bound) ∧
    ∀ trace s, Run (Step calls) (initial n) trace s → (∀ e, ¬ Enabled s e) → s.main = .returned result

theorem runs_bounded (calls : Calls n) :
    ∃ bound, ∀ trace s, Run (Step calls) (initial n) trace s → trace.length ≤ bound := by
  refine ⟨rank (initial n), fun trace s hrun => ?_⟩
  have hle := hrun.length_add_le rank fun _ _ _ _ hrun hstep => rank_of_step hrun hstep
  omega

/-- `buf_pool_init` returns what is required exactly if every `pthread_create` call and every
initialisation succeeds. -/
theorem returns_required_iff (calls : Calls n) : Returns calls (required calls) ↔ AllSucceed calls := by
  constructor
  · rintro ⟨-, hreturns⟩
    -- Some run ends, and `DB_ERROR` is not what it returns.
    have hend : ∃ trace s, Run (Step calls) (initial n) trace s ∧ ∀ e s', ¬ Step calls s e s' :=
      Run.exists_final rank fun _ _ _ _ hrun hstep => rank_of_step hrun hstep
    obtain ⟨trace, s, hrun, hfinal⟩ := hend
    have hmain := hreturns trace s hrun fun e henabled => hfinal e _ ⟨henabled, rfl⟩
    rw [← required_eq_success_iff]
    cases hrequired : required calls with
    | success => rfl
    | error => exact absurd (hrequired ▸ hmain) (inv_of_run hrun).noError
  · intro hok
    rw [required_eq_success_iff.mpr hok]
    exact ⟨runs_bounded calls, fun trace s hrun hfinal =>
      returned_success_of_final (inv_of_run hrun) (quiet_of_run hok hrun).running hfinal⟩

/-- One instance whose initialisation fails, and one whose thread cannot be started (`EAGAIN`). -/
def failingInit : Calls 1 := ⟨fun _ => 0, fun _ => .forcedOom⟩

def failingCreate : Calls 1 := ⟨fun _ => 11, fun _ => .success⟩

def failingInitSchedule : List (Event 1) :=
  [.main, .thread 0, .thread 0, .thread 0, .thread 0, .thread 0, .thread 0, .main, .main, .main, .main]

def failingCreateSchedule : List (Event 1) := [.main, .main, .main, .main, .main]

/-- The required answer is `DB_ERROR` both times: the first run crashes before it returns, the second
one returns `DB_SUCCESS`. -/
theorem failures_not_reported :
    (required failingInit = .error ∧ required failingCreate = .error) ∧
      (∃ trace s, Run (Step failingInit) (initial 1) trace s ∧ (∀ e, ¬ Enabled s e) ∧
        s.crashed = true ∧ s.main = .setSizes) ∧
      ∃ trace s, Run (Step failingCreate) (initial 1) trace s ∧ (∀ e, ¬ Enabled s e) ∧
        s.crashed = false ∧ s.main = .returned .success := by
  have hinit : Run (Step failingInit) (initial 1) failingInitSchedule.reverse
      (execute (effect failingInit) (initial 1) failingInitSchedule) := run_execute (by decide +kernel)
  have hcreate : Run (Step failingCreate) (initial 1) failingCreateSchedule.reverse
      (execute (effect failingCreate) (initial 1) failingCreateSchedule) :=
    run_execute (by decide +kernel)
  have hdead : ∀ i, ¬ Enabled (execute (effect failingCreate) (initial 1) failingCreateSchedule)
      (.thread i) := by decide +kernel
  have hcrashed : (execute (effect failingInit) (initial 1) failingInitSchedule).crashed = true := by
    decide +kernel
  refine ⟨by decide +kernel, ⟨_, _, hinit, fun e => ?_, hcrashed, by decide +kernel⟩,
    ⟨_, _, hcreate, fun e => ?_, by decide +kernel, by decide +kernel⟩⟩
  · cases e <;> simp [Enabled, hcrashed]
  · cases e with
    | main => decide +kernel
    | thread i => exact hdead i

end Multicore.BufPool
