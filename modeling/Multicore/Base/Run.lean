import Mathlib.Algebra.Order.BigOperators.Group.Finset
import Mathlib.Data.List.Basic
import Mathlib.Tactic.TypeStar

/-!
# Runs of an interleaved system

A concurrent program is a state, a set of events and a relation saying what each event does to the
state. One event is one indivisible action of one thread, so a run is a list of events in the order
the scheduler chose them, and a fact about every interleaving is a fact about every run.

Traces are kept latest event first: the induction over a run peels off its last event.
-/

namespace Multicore

variable {σ ε : Type*}

/-- `Run step start trace s`: the events of `trace`, latest first, lead from `start` to `s`. -/
inductive Run (step : σ → ε → σ → Prop) (start : σ) : List ε → σ → Prop where
  | nil : Run step start [] start
  | cons {trace : List ε} {s s' : σ} {e : ε} (hrun : Run step start trace s) (hstep : step s e s') :
      Run step start (e :: trace) s'

/-- The system whose event `e` may happen in `s` when `enabled s e`, and then has the result
`effect s e`. -/
def Fires (enabled : σ → ε → Prop) (effect : σ → ε → σ) (s : σ) (e : ε) (s' : σ) : Prop :=
  enabled s e ∧ s' = effect s e

/-- The steps of a system that meet a condition on the state before the step. -/
def Restrict (step : σ → ε → σ → Prop) (condition : σ → ε → Prop) (s : σ) (e : ε) (s' : σ) : Prop :=
  step s e s' ∧ condition s e

namespace Run

variable {step : σ → ε → σ → Prop} {start s : σ} {trace : List ε}

/-- What holds at the start and is kept by every step holds in every state reached. -/
theorem invariant {P : List ε → σ → Prop} (hrun : Run step start trace s) (hstart : P [] start)
    (hkeep : ∀ trace s e s', Run step start trace s → P trace s → step s e s' → P (e :: trace) s') :
    P trace s := by
  induction hrun with
  | nil => exact hstart
  | cons hrun hstep ih => exact hkeep _ _ _ _ hrun ih hstep

/-- A run is no longer than a measure that every step lowers. -/
theorem length_add_le (measure : σ → ℕ) (hrun : Run step start trace s)
    (hlower : ∀ trace s e s', Run step start trace s → step s e s' → measure s' < measure s) :
    trace.length + measure s ≤ measure start := by
  induction hrun with
  | nil => simp
  | cons hrun hstep ih =>
    have hlt := hlower _ _ _ _ hrun hstep
    rw [List.length_cons]
    omega

/-- Where the events are the threads, each step lowers the work of its own thread and leaves the work
of the others as it is, no run is longer than the work at the start. -/
theorem length_le_sum [Fintype ε] (work : σ → ε → ℕ) (hrun : Run step start trace s)
    (hself : ∀ trace s e s', Run step start trace s → step s e s' → work s' e < work s e)
    (hother : ∀ s e s' other, step s e s' → other ≠ e → work s' other = work s other) :
    trace.length ≤ ∑ e, work start e := by
  have hsum : trace.length + ∑ e, work s e ≤ ∑ e, work start e := by
    refine hrun.length_add_le (fun s => ∑ e, work s e) fun trace s e s' hrun hstep => ?_
    have hlt := hself trace s e s' hrun hstep
    refine Finset.sum_lt_sum (fun other _ => ?_) ⟨e, Finset.mem_univ e, hlt⟩
    by_cases heq : other = e
    · rw [heq]
      exact hlt.le
    · rw [hother s e s' other hstep heq]
  omega

/-- Where every step lowers a measure, some run goes on until no step is left. -/
theorem exists_final (measure : σ → ℕ)
    (hlower : ∀ trace s e s', Run step start trace s → step s e s' → measure s' < measure s) :
    ∃ trace s, Run step start trace s ∧ ∀ e s', ¬ step s e s' := by
  have hgo : ∀ m trace s, measure s ≤ m → Run step start trace s →
      ∃ trace s, Run step start trace s ∧ ∀ e s', ¬ step s e s' := by
    intro m
    induction m with
    | zero =>
      intro trace s hle hrun
      exact ⟨trace, s, hrun, fun e s' hstep => absurd (hlower _ _ _ _ hrun hstep) (by omega)⟩
    | succ m ih =>
      intro trace s hle hrun
      by_cases hmore : ∃ e s', step s e s'
      · obtain ⟨e, s', hstep⟩ := hmore
        have hlt := hlower _ _ _ _ hrun hstep
        exact ih _ s' (by omega) (.cons hrun hstep)
      · push Not at hmore
        exact ⟨trace, s, hrun, hmore⟩
  exact hgo (measure start) [] start le_rfl .nil

theorem mono {step' : σ → ε → σ → Prop} (hrun : Run step start trace s)
    (hle : ∀ s e s', step s e s' → step' s e s') : Run step' start trace s := by
  induction hrun with
  | nil => exact .nil
  | cons _ hstep ih => exact .cons ih (hle _ _ _ hstep)

theorem of_restrict {condition : σ → ε → Prop} (hrun : Run (Restrict step condition) start trace s) :
    Run step start trace s :=
  hrun.mono fun _ _ _ h => h.1

theorem append {middle : σ} {later : List ε} (hfirst : Run step start trace middle)
    (hlater : Run step middle later s) : Run step start (later ++ trace) s := by
  induction hlater with
  | nil => exact hfirst
  | cons _ hstep ih => exact .cons ih hstep

theorem split {later : List ε} (hrun : Run step start (later ++ trace) s) :
    ∃ middle, Run step start trace middle ∧ Run step middle later s := by
  induction later generalizing s with
  | nil => exact ⟨s, hrun, .nil⟩
  | cons e later ih =>
    cases hrun with
    | cons hrun hstep =>
      obtain ⟨middle, hfirst, hlater⟩ := ih hrun
      exact ⟨middle, hfirst, .cons hlater hstep⟩

/-- A view `f` of the states under which every step is a step of another system, or shows nothing,
turns a run into a run of that system. -/
theorem simulate {τ δ : Type*} (step' : τ → δ → τ → Prop) (f : σ → τ) (hrun : Run step start trace s)
    (hsim : ∀ trace s e s', Run step start trace s → step s e s' →
      (∃ d, step' (f s) d (f s')) ∨ f s' = f s) :
    ∃ trace', Run step' (f start) trace' (f s) := by
  induction hrun with
  | nil => exact ⟨[], .nil⟩
  | cons hrun hstep ih =>
    obtain ⟨trace', hrun'⟩ := ih
    rcases hsim _ _ _ _ hrun hstep with ⟨d, hstep'⟩ | hsame
    · exact ⟨d :: trace', .cons hrun' hstep'⟩
    · exact ⟨trace', hsame ▸ hrun'⟩

/-- Some state of the run before its last event satisfies `P`. -/
def MetBefore (step : σ → ε → σ → Prop) (start : σ) (trace : List ε) (P : σ → Prop) : Prop :=
  ∃ early e late s, trace = late ++ e :: early ∧ Run step start early s ∧ P s

theorem MetBefore.append_left {P : σ → Prop} (hmet : MetBefore step start trace P)
    (later : List ε) : MetBefore step start (later ++ trace) P := by
  obtain ⟨early, e, late, s, htrace, hearly, hP⟩ := hmet
  exact ⟨early, e, later ++ late, s, by rw [htrace, List.append_assoc], hearly, hP⟩

theorem MetBefore.append_right {P : σ → Prop} {later : List ε} (hrun : Run step start trace s)
    (hmet : MetBefore step s later P) : MetBefore step start (later ++ trace) P := by
  obtain ⟨early, e, late, s', hlater, hearly, hP⟩ := hmet
  exact ⟨early ++ trace, e, late, s', by simp [hlater], hrun.append hearly, hP⟩

/-- A run either meets `P` before its last event or takes every step in a state without it. -/
theorem metBefore_or_restrict (hrun : Run step start trace s) (P : σ → Prop) :
    MetBefore step start trace P ∨ Run (Restrict step fun s _ => ¬ P s) start trace s := by
  induction hrun with
  | nil => exact .inr .nil
  | @cons trace s s' e hrun hstep ih =>
    rcases ih with ⟨early, e', late, met, htrace, hearly, hmet⟩ | havoid
    · exact .inl ⟨early, e', e :: late, met, by rw [htrace, List.cons_append], hearly, hmet⟩
    · by_cases hP : P s
      · exact .inl ⟨trace, e, [], s, rfl, hrun, hP⟩
      · exact .inr (.cons havoid ⟨hstep, hP⟩)

end Run

/-! ### Executing a list of events

A schedule is written in program order; executing it gives the state it ends in, and the events can
be checked one after another for being enabled. -/

-- Schedules name threads by numerals. As constants these instances leave no proof inside a schedule.
instance (priority := high) neZeroTwo : @NeZero ℕ Zero.ofOfNat0 2 := ⟨Nat.succ_ne_zero 1⟩

instance (priority := high) neZeroThree : @NeZero ℕ Zero.ofOfNat0 3 := ⟨Nat.succ_ne_zero 2⟩

instance (priority := high) neZeroFour : @NeZero ℕ Zero.ofOfNat0 4 := ⟨Nat.succ_ne_zero 3⟩

section Execute

variable (enabled : σ → ε → Prop) (effect : σ → ε → σ)

def execute : σ → List ε → σ
  | s, [] => s
  | s, e :: schedule => execute (effect s e) schedule

def AllEnabled : σ → List ε → Prop
  | _, [] => True
  | s, e :: schedule => enabled s e ∧ AllEnabled (effect s e) schedule

instance decidableAllEnabled [∀ s e, Decidable (enabled s e)] :
    ∀ s schedule, Decidable (AllEnabled enabled effect s schedule)
  | _, [] => inferInstanceAs (Decidable True)
  | s, e :: schedule =>
    haveI := decidableAllEnabled (effect s e) schedule
    inferInstanceAs (Decidable (enabled s e ∧ AllEnabled enabled effect (effect s e) schedule))

variable {enabled effect}

theorem run_execute {s : σ} {schedule : List ε} (hall : AllEnabled enabled effect s schedule) :
    Run (Fires enabled effect) s schedule.reverse (execute effect s schedule) := by
  induction schedule generalizing s with
  | nil => exact .nil
  | cons e schedule ih =>
    rw [List.reverse_cons]
    exact Run.append (.cons .nil ⟨hall.1, rfl⟩) (ih hall.2)

theorem run_execute_restrict {condition : σ → ε → Prop} {s : σ} {schedule : List ε}
    (hall : AllEnabled (fun s e => enabled s e ∧ condition s e) effect s schedule) :
    Run (Restrict (Fires enabled effect) condition) s schedule.reverse (execute effect s schedule) :=
  (run_execute hall).mono fun _ _ _ h => ⟨⟨h.1.1, h.2⟩, h.1.2⟩

/-- The state a trace leads to. -/
def replay (effect : σ → ε → σ) (start : σ) : List ε → σ
  | [] => start
  | e :: trace => effect (replay effect start trace) e

theorem Run.eq_replay {start s : σ} {trace : List ε} (hrun : Run (Fires enabled effect) start trace s) :
    s = replay effect start trace := by
  induction hrun with
  | nil => rfl
  | cons _ hstep ih => rw [hstep.2, ih, replay]

end Execute

end Multicore
