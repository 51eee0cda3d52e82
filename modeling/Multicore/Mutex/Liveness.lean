import Multicore.Base.Fair
import Multicore.Mutex.Wakeup

/-!
# Whoever sleeps is woken

If the threads inside the functions keep stepping and every holder leaves the mutex at some time, then
no thread waits on an event of the mutex forever: on a mutex without priorities nobody does, on a
priority mutex no thread of high priority does. A thread of low priority may, as each of the threads
that leave the mutex can find another one of high priority waiting.
-/

namespace Multicore.Mutex

variable {n : ℕ} {prio : Bool} {rounds : ℕ} {s s' : State n} {e : Event n} {i j : Fin n}

/-- How many steps the thread is away from the signal it is in charge of. -/
def Pc.toSignal : Pc → ℕ
  | .retryOwner => 9
  | .retryWithdraw | .setOwner => 8
  | .held => 7
  | .exitOwner => 6
  | .exitWord => 5
  | .exitHigh => 4
  | .exitWaiters => 3
  | .clearWaiters => 2
  | _ => 1

/-- The thread goes on, whether by a step inside the functions or by leaving the mutex. -/
def Turn (j : Fin n) (e : Event n) : Prop := e = .step j ∨ e = .exit j

/-- No thread stops inside the functions unless it sleeps, and no thread keeps the mutex forever. -/
def KeepsGoing (run : Endless (Step prio rounds) (initial n)) : Prop :=
  ∀ j, run.Fair (fun s => (s.thread j).pc ≠ .idle ∧ ¬ Blocked s j) (Turn j)

/-- The threads whose turn it is not stay where they are. -/
theorem thread_of_not_turn (hstep : Step prio rounds s e s') (hpc : (s.thread j).pc ≠ .idle)
    (hturn : ¬ Turn j e) : s'.thread j = s.thread j := by
  obtain ⟨henabled, rfl⟩ := hstep
  cases e with
  | enter i high =>
    have hne : j ≠ i := fun heq => hpc (heq ▸ henabled.1)
    simp [effect, State.setThread, hne]
  | enterNowait i =>
    have hne : j ≠ i := fun heq => hpc (heq ▸ henabled)
    simp [effect, State.setThread, hne]
  | exit i =>
    have hne : j ≠ i := fun heq => hturn (.inr (heq ▸ rfl))
    simp [effect, State.setThread, hne]
  | step i =>
    have hne : j ≠ i := fun heq => hturn (.inl (heq ▸ rfl))
    simp [effect, State.setThread, hne]
  | wake high => rfl

section Serve

variable {m : IbMutex n} {t : Thread}

theorem toSignal_next_high (hserves : t.serves true = true) (hheld : t.pc ≠ .held)
    (hprio : prio = true) :
    ((next prio rounds m i t).2.serves true = true ∧
        (next prio rounds m i t).2.pc.toSignal < t.pc.toSignal) ∨
      (next prio rounds m i t).1.highPriorityEvent = m.highPriorityEvent.set ∨
      (t.pc = .exitHigh ∧ m.highPriorityWaiters = 0) := by
  cases hpc : t.pc <;> simp only [next, testAndSet, IbMutex.setCellEvent, hpc] <;> repeat' split
  all_goals simp_all [Thread.serves, Pc.owns, Pc.toSignal]

theorem toSignal_next_low (hserves : t.serves false = true) (hheld : t.pc ≠ .held)
    (hlow : t.high = false) :
    ((next prio rounds m i t).2.serves false = true ∧
        (next prio rounds m i t).2.pc.toSignal < t.pc.toSignal) ∨
      (next prio rounds m i t).1.event = m.event.set ∨
      (t.pc = .exitHigh ∧ m.highPriorityWaiters ≠ 0) ∨ (t.pc = .exitWaiters ∧ m.waiters = false) := by
  cases hpc : t.pc <;> simp only [next, testAndSet, IbMutex.setCellEvent, hpc] <;> repeat' split
  all_goals simp_all [Thread.serves, Pc.owns, Pc.toSignal]

end Serve

/-! ### One step -/

/-- A sleeping thread stays where it is. -/
theorem thread_of_blocked (hstep : Step prio rounds s e s') (hblocked : Blocked s i) :
    s'.thread i = s.thread i := by
  refine thread_of_not_turn hstep (by simp [hblocked.1]) ?_
  rintro (rfl | rfl)
  · exact hstep.1.2 hblocked
  · have hheld : (s.thread i).pc = .held := hstep.1
    simp [hblocked.1] at hheld

namespace Attended

theorem events_step (h : Attended prio s) (hstep : Step prio rounds s e s') (high : Bool) :
    (s.mutex.cellEvent high).Follows (s'.mutex.cellEvent high) := by
  obtain ⟨-, rfl⟩ := hstep
  cases e with
  | step i =>
    refine (proceeds_next h.pos (h.recorded i) (h.onlyHigh i) fun hcounted => ?_).events high
    rw [h.counted]
    exact count_pos_iff.mpr ⟨i, hcounted⟩
  | wake high' =>
    cases high <;> cases high' <;>
      simp [effect, IbMutex.cellEvent, IbMutex.setCellEvent, OsEvent.Follows]
  | _ => exact .inl rfl

/-- A signal wakes everybody who sleeps on the event. -/
theorem not_blocked_of_set (h : Attended prio s) (hstep : Step prio rounds s e s')
    (hblocked : Blocked s i)
    (hset : s'.mutex.cellEvent (s.thread i).high = (s.mutex.cellEvent (s.thread i).high).set) :
    ¬ Blocked s' i := by
  intro hblocked'
  have hnot := (((h.step hstep).blocked_iff i).mp hblocked').2
  rw [thread_of_blocked hstep hblocked] at hnot
  exact h.not_unsignalled_of_set (by rw [hblocked.1]; rfl) hset hnot

/-- Who is awake in the wait stays awake until it goes on. -/
theorem awake_step (h : Attended prio s) (hstep : Step prio rounds s e s')
    (hpc : (s.thread i).pc = .wait) (hawake : ¬ Blocked s i) (hturn : ¬ Turn i e) :
    (s'.thread i).pc = .wait ∧ ¬ Blocked s' i := by
  have hsame := thread_of_not_turn hstep (by simp [hpc]) hturn
  refine ⟨by rw [hsame, hpc], fun hblocked => hawake ((h.blocked_iff i).mpr ⟨hpc, ?_⟩)⟩
  have hnot := (((h.step hstep).blocked_iff i).mp hblocked).2
  rw [hsame] at hnot
  exact h.unsignalled (h.events_step hstep) (by rw [hpc]; rfl) hnot

end Attended

/-- Thread `j` is in charge of waking `i`. -/
structure Serving (prio : Bool) (i j : Fin n) (s : State n) : Prop where
  attended : Attended prio s
  blocked : Blocked s i
  preferred : (s.thread i).high = true ∨ prio = false
  serves : (s.thread j).serves (s.thread i).high = true

namespace Serving

theorem awake (h : Serving prio i j s) : (s.thread j).pc ≠ .idle ∧ ¬ Blocked s j := by
  have hserves := h.serves
  cases hhigh : (s.thread i).high with
  | true => exact not_blocked_of_serves_high (hhigh ▸ hserves)
  | false =>
    have hlow : (s.thread j).high = false := by
      by_contra hj
      have hprio := h.attended.high j (by simpa using hj)
      simpa [hhigh, hprio] using h.preferred
    rw [hhigh] at hserves
    refine ⟨fun hidle => ?_, fun hblocked => ?_⟩
    · simp [Thread.serves, hidle, Pc.owns, hlow] at hserves
    · simp [Thread.serves, hblocked.1, Pc.owns, hlow] at hserves

/-- A step of the thread in charge brings the signal nearer, or gives it, or another thread is about to
give it. -/
theorem turn (h : Serving prio i j s) (hstep : Step prio rounds s e s') (hturn : Turn j e) :
    ((s'.thread j).serves (s.thread i).high = true ∧
        (s'.thread j).pc.toSignal < (s.thread j).pc.toSignal) ∨
      ¬ Blocked s' i ∨ ((s.thread i).high = false ∧ ∃ k, (s'.thread k).pc = .signal) := by
  have hserves := h.serves
  have hpc := h.blocked.1
  have hnot := ((h.attended.blocked_iff i).mp h.blocked).2
  rcases hturn with rfl | rfl
  · have hheld : (s.thread j).pc ≠ .held := hstep.1.1.2
    have hthread : s'.thread j = (next prio rounds s.mutex j (s.thread j)).2 := by
      simp [hstep.2, effect, State.setThread]
    have hmutex : s'.mutex = (next prio rounds s.mutex j (s.thread j)).1 := by
      simp [hstep.2, effect, State.setThread]
    have hset := h.attended.not_blocked_of_set hstep h.blocked
    rw [hthread]
    cases hhigh : (s.thread i).high with
    | true =>
      rw [hhigh] at hserves hset
      rcases toSignal_next_high hserves hheld (h.attended.high i hhigh) with hnear | hsignal | ⟨-, hzero⟩
      · exact .inl hnear
      · exact .inr (.inl (hset (by rw [hmutex]; exact hsignal)))
      · rw [h.attended.counted, count_eq_zero_iff] at hzero
        simpa [Thread.counted, hhigh, hpc, Pc.counted] using hzero i
    | false =>
      rw [hhigh] at hserves hset
      have hprio : prio = false := by simpa [hhigh] using h.preferred
      have hlow : ∀ k, (s.thread k).high = false := fun k => by
        by_contra hk
        simpa [hprio] using h.attended.high k (by simpa using hk)
      rcases toSignal_next_low hserves hheld (hlow j) with hnear | hsignal | ⟨-, hwaiting⟩ | ⟨hexit, hnone⟩
      · exact .inl hnear
      · exact .inr (.inl (hset (by rw [hmutex]; exact hsignal)))
      · refine absurd (count_eq_zero_iff.mpr fun k => ?_) (h.attended.counted ▸ hwaiting)
        simp [Thread.counted, hlow k]
      · rcases h.attended.noticed i (by rw [hpc]; rfl) hhigh hnot with hwaiters | ⟨k, hk⟩
        · simp [hnone] at hwaiters
        · have hne : k ≠ j := fun heq => by simp [heq, hexit] at hk
          exact .inr (.inr ⟨rfl, k, by simpa [hstep.2, effect, State.setThread, hne] using hk⟩)
  · have hheld : (s.thread j).pc = .held := hstep.1
    have hthread : (s'.thread j).pc = .exitOwner := by simp [hstep.2, effect, State.setThread]
    refine .inl ⟨Thread.serves_of_owns (by rw [hthread]; rfl) _, ?_⟩
    rw [hthread, hheld]
    decide

theorem other (h : Serving prio i j s) (hstep : Step prio rounds s e s') (hturn : ¬ Turn j e)
    (hblocked : Blocked s' i) :
    Serving prio i j s' ∧ (s'.thread j).pc.toSignal ≤ (s.thread j).pc.toSignal := by
  have hi := thread_of_blocked hstep h.blocked
  have hj := thread_of_not_turn hstep h.awake.1 hturn
  exact ⟨⟨h.attended.step hstep, hblocked, hi ▸ h.preferred, by rw [hi, hj]; exact h.serves⟩,
    by rw [hj]⟩

end Serving

/-! ### Endless runs -/

section Run

variable {run : Endless (Step prio rounds) (initial n)}

theorem attended_state (k : ℕ) : Attended prio (run.state k) :=
  run.invariant attended_initial (fun _ _ _ h hstep => h.step hstep) k

variable (hfair : KeepsGoing run)
include hfair

/-- A thread between the reset of `waiters` and the signal wakes whoever sleeps. -/
theorem signal_leadsTo (i k : Fin n) :
    run.LeadsTo (fun s => Attended prio s ∧ Blocked s i ∧ (s.thread i).high = false ∧
        (s.thread k).pc = .signal)
      fun s => ¬ Blocked s i := by
  have hhelp : ∀ s e s', Attended prio s ∧ Blocked s i ∧ (s.thread i).high = false ∧
      (s.thread k).pc = .signal → Step prio rounds s e s' → Turn k e → ¬ Blocked s' i := by
    rintro s e s' ⟨h, hblocked, hlow, hsignal⟩ hstep (rfl | rfl)
    · refine h.not_blocked_of_set hstep hblocked ?_
      simp [hstep.2, effect, State.setThread, next, hsignal, hlow, IbMutex.cellEvent]
    · have hheld : (s.thread k).pc = .held := hstep.1
      simp [hsignal] at hheld
  refine Endless.ensures (hfair k) (fun s h => ?_) ?_ hhelp
  · exact ⟨by simp [h.2.2.2], fun hblocked => by simp [hblocked.1] at h⟩
  · intro s e s' hs hstep
    by_cases hturn : Turn k e
    · exact .inr (hhelp s e s' hs hstep hturn)
    · obtain ⟨h, hblocked, hlow, hsignal⟩ := hs
      by_cases hblocked' : Blocked s' i
      · have hi := thread_of_blocked hstep hblocked
        have hk := thread_of_not_turn hstep (by simp [hsignal]) hturn
        exact .inl ⟨h.step hstep, hblocked', by rw [hi, hlow], by rw [hk, hsignal]⟩
      · exact .inr hblocked'

/-- The thread in charge comes to the signal, or leaves it to one that is about to give it. -/
theorem serving_leadsTo (i j : Fin n) :
    run.LeadsTo (Serving prio i j) fun s => ¬ Blocked s i ∨
      ∃ k, Attended prio s ∧ Blocked s i ∧ (s.thread i).high = false ∧ (s.thread k).pc = .signal := by
  refine Endless.ensures_rank (fun s => (s.thread j).pc.toSignal) (hfair j) (fun s h => h.awake)
    (fun s e s' h hstep hturn => ?_) fun s e s' h hstep hturn => ?_
  · by_cases hblocked : Blocked s' i
    · have hi := thread_of_blocked hstep h.blocked
      rcases h.turn hstep hturn with ⟨hserves, hlt⟩ | hawake | ⟨hlow, k, hk⟩
      · exact .inl ⟨⟨h.attended.step hstep, hblocked, hi ▸ h.preferred, by rw [hi]; exact hserves⟩, hlt⟩
      · exact .inr (.inl hawake)
      · exact .inr (.inr ⟨k, h.attended.step hstep, hblocked, by rw [hi, hlow], hk⟩)
    · exact .inr (.inl hblocked)
  · by_cases hblocked : Blocked s' i
    · exact .inl (h.other hstep hturn hblocked)
    · exact .inr (.inl hblocked)

theorem blocked_leadsTo (i : Fin n) :
    run.LeadsTo (fun s => Blocked s i ∧ ((s.thread i).high = true ∨ prio = false))
      fun s => ¬ Blocked s i := by
  rintro l ⟨hblocked, hpreferred⟩
  have h : Attended prio (run.state l) := attended_state l
  obtain ⟨hpc, hnot⟩ := (h.blocked_iff i).mp hblocked
  obtain ⟨j, hj⟩ := h.served i (by rw [hpc]; rfl) hnot
  obtain ⟨m, hlm, hawake | ⟨k, hk⟩⟩ := serving_leadsTo hfair i j l ⟨h, hblocked, hpreferred, hj⟩
  · exact ⟨m, hlm, hawake⟩
  · obtain ⟨m', hmm', hawake⟩ := signal_leadsTo hfair i k m hk
    exact ⟨m', hlm.trans hmm', hawake⟩

theorem awake_leadsTo (i : Fin n) :
    run.LeadsTo (fun s => Attended prio s ∧ (s.thread i).pc = .wait ∧ ¬ Blocked s i)
      fun s => (s.thread i).pc ≠ .wait := by
  have hhelp : ∀ s e s', Attended prio s ∧ (s.thread i).pc = .wait ∧ ¬ Blocked s i →
      Step prio rounds s e s' → Turn i e → (s'.thread i).pc ≠ .wait := by
    rintro s e s' ⟨-, hpc, -⟩ hstep (rfl | rfl)
    · simp only [hstep.2, effect, State.setThread, Function.update_self, next, hpc]
      split <;> simp
    · simp [hstep.2, effect, State.setThread]
  refine Endless.ensures (hfair i) (fun s h => ⟨by simp [h.2.1], h.2.2⟩) ?_ hhelp
  intro s e s' hs hstep
  by_cases hturn : Turn i e
  · exact .inr (hhelp s e s' hs hstep hturn)
  · exact .inl ⟨hs.1.step hstep, hs.1.awake_step hstep hs.2.1 hs.2.2 hturn⟩

end Run

/-- The second thread sleeps, the first one leaves and wakes it, and it gets in and leaves as well. -/
def wokenUp : List (Event 2) :=
  putToSleep false ++ [.exit 0] ++ List.replicate 5 (.step 0) ++ List.replicate 4 (.step 1) ++
    [.exit 1] ++ List.replicate 3 (.step 1)

theorem allEnabled_wokenUp : AllEnabled (Enabled false) (effect false 0) (initial 2) wokenUp := by
  decide

end Multicore.Mutex
