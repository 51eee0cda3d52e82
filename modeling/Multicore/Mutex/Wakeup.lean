import Multicore.Base.Count
import Multicore.Mutex.Exclusion

/-!
# No wake-up is lost

The two lemmas that `sync0sync.cc` states in its opening comment. A thread about to sleep has reset the
event, announced itself and then found the mutex taken. From then on some thread is in charge of
signalling that event: an owner, or a thread on its way out of `mutex_exit_func`. For a thread of low
priority a thread of high priority inside `mutex_enter_func` will do as well, since it does not leave
without having owned the mutex.
-/

namespace Multicore.Mutex

variable {n : ℕ} {prio : Bool} {rounds : ℕ} {s s' : State n} {e : Event n} {i : Fin n}

/-- The thread has reset its event and kept the count. -/
def Pc.registered : Pc → Bool
  | .announce | .retry _ | .beginWait | .wait => true
  | _ => false

/-- The thread has told that it is going to wait. -/
def Pc.announced : Pc → Bool
  | .retry _ | .beginWait | .wait => true
  | _ => false

/-- All tries after the announcement have failed. -/
def Pc.failed : Pc → Bool
  | .beginWait | .wait => true
  | _ => false

/-- A thread of high priority is counted in `high_priority_waiters`. -/
def Pc.counted : Pc → Bool
  | .retry _ | .retryOwner | .retryWithdraw | .beginWait | .wait | .woken => true
  | _ => false

/-- Only a thread of high priority comes here. -/
def Pc.onlyHigh : Pc → Bool
  | .retryWithdraw | .woken => true
  | _ => false

/-- The thread is inside `mutex_enter_func` and has not got the mutex. -/
def Pc.entering : Pc → Bool
  | .enter | .spin _ | .spinSet _ | .reserve | .announce | .retry _ | .beginWait | .wait | .woken => true
  | _ => false

def Thread.counted (t : Thread) : Bool := t.high && t.pc.counted

/-- The thread is in charge of the waiters of one priority. -/
def Thread.serves (high : Bool) (t : Thread) : Bool :=
  t.pc.owns || t.pc == .exitHigh ||
    bif high then t.pc == .signalHigh
    else t.pc == .exitWaiters || t.pc == .clearWaiters || t.pc == .signal || (t.high && t.pc.entering)

/-- No signal has come since the thread reset its event. -/
def Unsignalled (m : IbMutex n) (t : Thread) : Prop :=
  (m.cellEvent t.high).signalCount = t.signalCount

theorem Pc.registered_of_announced {pc : Pc} (h : pc.announced = true) : pc.registered = true := by
  cases pc <;> simp_all [Pc.announced, Pc.registered]

theorem Pc.announced_of_failed {pc : Pc} (h : pc.failed = true) : pc.announced = true := by
  cases pc <;> simp_all [Pc.announced, Pc.failed]

theorem Pc.counted_of_failed {pc : Pc} (h : pc.failed = true) : pc.counted = true := by
  cases pc <;> simp_all [Pc.counted, Pc.failed]

theorem Thread.serves_of_owns {t : Thread} (h : t.pc.owns = true) (high : Bool) :
    t.serves high = true := by
  simp [Thread.serves, h]

/-- A counted thread has got the mutex or is about to. -/
theorem Thread.serves_of_counted {t : Thread} (h : t.counted = true) : t.serves false = true := by
  obtain ⟨hhigh, hcounted⟩ : t.high = true ∧ t.pc.counted = true := by
    simpa [Thread.counted] using h
  cases hpc : t.pc <;> simp_all [Pc.counted, Thread.serves, Pc.owns, Pc.entering]

/-! ### What a thread does for the waiters -/

/-- What the other threads can rely on when a thread goes from `t` to `t'`. -/
structure Proceeds (prio : Bool) (m : IbMutex n) (t : Thread) (m' : IbMutex n) (t' : Thread) :
    Prop where
  events : ∀ high, (m.cellEvent high).Follows (m'.cellEvent high)
  high : t'.high = true → t.high = true ∨ prio = true
  onlyHigh : t'.pc.onlyHigh = true → t'.high = true
  recorded : t'.pc.registered = true → (m'.cellEvent t'.high).Recorded t'.signalCount
  counted : m'.highPriorityWaiters + t.counted.toNat = m.highPriorityWaiters + t'.counted.toNat
  waiters : m.waiters = true → m'.waiters = true ∨ t'.pc = .signal
  announced : t'.pc.announced = true →
    (t.pc.announced = true ∧ t'.high = t.high ∧ t'.signalCount = t.signalCount) ∨
      (t'.high = false → m'.waiters = true)
  failed : t'.pc.failed = true →
    (t.pc.failed = true ∧ t'.high = t.high ∧ t'.signalCount = t.signalCount) ∨
      (m.lockWord = true ∧ t.pc.owns = false)
  signal : t.pc = .signal → m'.event = m.event.set
  servesHigh : t.serves true = true → t'.serves true = true ∨
    m'.highPriorityEvent = m.highPriorityEvent.set ∨
    (t.pc = .exitHigh ∧ m.highPriorityWaiters = 0) ∨ prio = false
  servesLow : t.serves false = true → t'.serves false = true ∨ m'.event = m.event.set ∨
    (t.pc = .exitHigh ∧ m.highPriorityWaiters ≠ 0) ∨ (t.pc = .exitWaiters ∧ m.waiters = false)

theorem proceeds_next {m : IbMutex n} {t : Thread}
    (hpos : ∀ high, 0 < (m.cellEvent high).signalCount)
    (hrecorded : t.pc.registered = true → (m.cellEvent t.high).Recorded t.signalCount)
    (hhigh : t.pc.onlyHigh = true → t.high = true)
    (hcounted : t.counted = true → 0 < m.highPriorityWaiters) :
    Proceeds prio m t (next prio rounds m i t).1 (next prio rounds m i t).2 := by
  have hwait : t.pc = .beginWait → (m.cellEvent t.high).waitCount t.signalCount = t.signalCount :=
    fun hpc => (hrecorded (by rw [hpc]; rfl)).waitCount
  constructor
  case events =>
    intro high
    cases hpc : t.pc <;> simp only [next, testAndSet, IbMutex.setCellEvent, hpc] <;> repeat' split
    all_goals cases high <;> simp_all [IbMutex.cellEvent, OsEvent.Follows]
  case recorded =>
    have hreset := fun high => OsEvent.recorded_reset (hpos high)
    cases hpc : t.pc <;> simp only [next, testAndSet, IbMutex.setCellEvent, hpc] <;> repeat' split
    all_goals simp_all [Pc.registered, IbMutex.cellEvent]
  case counted =>
    clear hpos hrecorded hwait
    cases hpc : t.pc <;> simp only [next, testAndSet, IbMutex.setCellEvent, hpc] <;> repeat' split
    all_goals simp_all [Pc.counted, Pc.onlyHigh, Thread.counted]
    all_goals omega
  all_goals
    clear hpos hrecorded hcounted
    cases hpc : t.pc <;> simp only [next, testAndSet, IbMutex.setCellEvent, hpc] <;> repeat' split
  all_goals simp_all [Pc.announced, Pc.failed, Pc.owns, Pc.entering, Thread.serves, Pc.onlyHigh]

/-- A call that begins is not among the waiters yet. -/
theorem proceeds_call {m : IbMutex n} {t t' : Thread} (hpc : t.pc = .idle ∨ t.pc = .held)
    (hpc' : t'.pc = .enter ∨ t'.pc = .enterNowait ∨ t'.pc = .exitOwner)
    (howns : t'.pc.owns = t.pc.owns) (hhigh : t'.high = true → t.high = true ∨ prio = true) :
    Proceeds prio m t m t' := by
  refine ⟨fun _ => .inl rfl, hhigh, ?_, ?_, ?_, Or.inl, ?_, ?_, ?_, ?_, ?_⟩
  all_goals
    rcases hpc with h | h <;> rcases hpc' with h' | h' | h' <;>
      simp_all [Pc.announced, Pc.failed, Pc.owns, Pc.entering, Thread.serves, Pc.onlyHigh,
        Pc.registered, Thread.counted, Pc.counted]

/-! ### Every reachable state -/

structure Attended (prio : Bool) (s : State n) : Prop where
  exclusive : Exclusive s
  pos : ∀ high, 0 < (s.mutex.cellEvent high).signalCount
  high : ∀ i, (s.thread i).high = true → prio = true
  onlyHigh : ∀ i, (s.thread i).pc.onlyHigh = true → (s.thread i).high = true
  recorded : ∀ i, (s.thread i).pc.registered = true →
    (s.mutex.cellEvent (s.thread i).high).Recorded (s.thread i).signalCount
  counted : s.mutex.highPriorityWaiters = count Thread.counted s.thread
  /-- Whoever has announced itself is still announced, or the signal is about to come. -/
  noticed : ∀ i, (s.thread i).pc.announced = true → (s.thread i).high = false →
    Unsignalled s.mutex (s.thread i) → s.mutex.waiters = true ∨ ∃ j, (s.thread j).pc = .signal
  /-- Whoever has found the mutex taken is served by somebody. -/
  served : ∀ i, (s.thread i).pc.failed = true → Unsignalled s.mutex (s.thread i) →
    ∃ j, (s.thread j).serves (s.thread i).high = true

theorem attended_initial : Attended prio (initial n) where
  exclusive := exclusive_initial
  pos high := by cases high <;> exact Nat.one_pos
  high i hhigh := absurd hhigh Bool.false_ne_true
  onlyHigh i hpc := absurd hpc Bool.false_ne_true
  recorded i hpc := absurd hpc Bool.false_ne_true
  counted := (count_eq_zero_iff.mpr fun _ => rfl).symm
  noticed i hpc := absurd hpc Bool.false_ne_true
  served i hpc := absurd hpc Bool.false_ne_true

namespace Attended

variable {m' : IbMutex n} {t' : Thread}

/-- A registered thread without a signal had none before, whatever happens to the event. -/
theorem unsignalled (h : Attended prio s) (hevents : ∀ high, (s.mutex.cellEvent high).Follows (m'.cellEvent high))
    {j : Fin n} (hpc : (s.thread j).pc.registered = true) (hnot : Unsignalled m' (s.thread j)) :
    Unsignalled s.mutex (s.thread j) :=
  (h.recorded j hpc).eq_of_follows (hevents _) hnot

theorem wake (h : Attended prio s) (high : Bool) : Attended prio (effect prio rounds s (.wake high)) := by
  have hevents : ∀ h, (s.mutex.cellEvent h).Follows
      ((s.mutex.setCellEvent high (s.mutex.cellEvent high).set).cellEvent h) := by
    intro h
    cases h <;> cases high <;> simp [IbMutex.cellEvent, IbMutex.setCellEvent, OsEvent.Follows]
  have hstep : Step prio rounds s (.wake high) (effect prio rounds s (.wake high)) := ⟨trivial, rfl⟩
  refine ⟨h.exclusive.step hstep, fun k => ?_, h.high, h.onlyHigh, fun j hpc => ?_, ?_,
    fun j hpc hlow hnot => ?_, fun j hpc hnot => ?_⟩
  · exact (h.pos k).trans_le (hevents k).signalCount_le
  · exact (h.recorded j hpc).follows (hevents _)
  · cases high <;> exact h.counted
  · have hold := h.noticed j hpc hlow (h.unsignalled hevents (Pc.registered_of_announced hpc) hnot)
    cases high <;> exact hold
  · exact h.served j hpc (h.unsignalled hevents (Pc.registered_of_announced (Pc.announced_of_failed hpc)) hnot)

/-- A signal reaches every thread that has registered for it. -/
theorem not_unsignalled_of_set (h : Attended prio s) {j : Fin n}
    (hpc : (s.thread j).pc.registered = true)
    (hset : m'.cellEvent (s.thread j).high = (s.mutex.cellEvent (s.thread j).high).set) :
    ¬ Unsignalled m' (s.thread j) := by
  have hlt := (h.recorded j hpc).lt_set
  rw [Unsignalled, hset]
  omega

section Proceeds

variable (h : Attended prio s) (hp : Proceeds prio s.mutex (s.thread i) m' t')
include h hp

theorem noticed_proceeds (j : Fin n)
    (hpc : (Function.update s.thread i t' j).pc.announced = true)
    (hlow : (Function.update s.thread i t' j).high = false)
    (hnot : Unsignalled m' (Function.update s.thread i t' j)) :
    m'.waiters = true ∨ ∃ k, (Function.update s.thread i t' k).pc = .signal := by
  -- A thread that was announced before keeps its record, so the old fact applies to it.
  have hold : (s.thread j).pc.announced = true → (s.thread j).high = false →
      Unsignalled m' (s.thread j) →
      m'.waiters = true ∨ ∃ k, (Function.update s.thread i t' k).pc = .signal := by
    intro hpc hlow hnot
    have hregistered := Pc.registered_of_announced hpc
    rcases h.noticed j hpc hlow (h.unsignalled hp.events hregistered hnot) with hwaiters | hsignal
    · rcases hp.waiters hwaiters with hwaiters' | hsignal'
      · exact .inl hwaiters'
      · exact .inr ⟨i, by simpa using hsignal'⟩
    · refine .inr (exists_update (fun t : Thread => t.pc = .signal) hsignal fun hi => ?_)
      have hset := hp.signal hi
      exact absurd hnot (h.not_unsignalled_of_set hregistered (by simpa [hlow, IbMutex.cellEvent]))
  by_cases heq : j = i
  · subst heq
    rw [Function.update_self] at hpc hlow hnot
    rcases hp.announced hpc with ⟨hpc', hhigh, hcount⟩ | hwaiters
    · exact hold hpc' (hhigh ▸ hlow) (by rwa [Unsignalled, ← hhigh, ← hcount])
    · exact .inl (hwaiters hlow)
  · rw [Function.update_of_ne heq] at hpc hlow hnot
    exact hold hpc hlow hnot

theorem served_high (j : Fin n) (hpc : (s.thread j).pc.failed = true)
    (hhigh : (s.thread j).high = true) (hnot : Unsignalled m' (s.thread j)) :
    ∃ k, (Function.update s.thread i t' k).serves true = true := by
  have hregistered := Pc.registered_of_announced (Pc.announced_of_failed hpc)
  have hserved := h.served j hpc (h.unsignalled hp.events hregistered hnot)
  rw [hhigh] at hserved
  refine exists_update (fun t : Thread => t.serves true = true) hserved fun hi => ?_
  rcases hp.servesHigh hi with hserves | hset | ⟨-, hzero⟩ | hprio
  · exact hserves
  · exact absurd hnot (h.not_unsignalled_of_set hregistered (by simpa [hhigh, IbMutex.cellEvent]))
  · rw [h.counted, count_eq_zero_iff] at hzero
    simpa [Thread.counted, hhigh, Pc.counted_of_failed hpc] using hzero j
  · exact absurd (h.high j hhigh) (by simp [hprio])

theorem served_low (j : Fin n) (hpc : (s.thread j).pc.failed = true)
    (hlow : (s.thread j).high = false) (hnot : Unsignalled m' (s.thread j)) :
    ∃ k, (Function.update s.thread i t' k).serves false = true := by
  have hannounced := Pc.announced_of_failed hpc
  have hregistered := Pc.registered_of_announced hannounced
  have hold := h.unsignalled hp.events hregistered hnot
  obtain ⟨k, hk⟩ := h.served j hpc hold
  rw [hlow] at hk
  -- Who takes over, if it is the moving thread that gives up.
  have hother : ∀ l, l ≠ i → (s.thread l).serves false = true →
      ∃ k, (Function.update s.thread i t' k).serves false = true :=
    fun l hne hl => ⟨l, by rwa [Function.update_of_ne hne]⟩
  by_cases heq : k = i
  · subst heq
    rcases hp.servesLow hk with hserves | hset | ⟨hexit, hwaiting⟩ | ⟨hexit, hnone⟩
    · exact ⟨k, by rwa [Function.update_self]⟩
    · exact absurd hnot (h.not_unsignalled_of_set hregistered (by simpa [hlow, IbMutex.cellEvent]))
    · rw [h.counted, ← Nat.pos_iff_ne_zero, count_pos_iff] at hwaiting
      obtain ⟨l, hl⟩ := hwaiting
      refine hother l (fun heq => ?_) (Thread.serves_of_counted hl)
      simp [heq, Thread.counted, hexit, Pc.counted] at hl
    · rcases h.noticed j hannounced hlow hold with hwaiters | ⟨l, hl⟩
      · simp [hnone] at hwaiters
      · refine hother l (fun heq => ?_) (by simp [Thread.serves, hl])
        simp [heq, hexit] at hl
  · exact hother k heq hk

theorem served_proceeds (j : Fin n) (hpc : (Function.update s.thread i t' j).pc.failed = true)
    (hnot : Unsignalled m' (Function.update s.thread i t' j)) :
    ∃ k, (Function.update s.thread i t' k).serves (Function.update s.thread i t' j).high = true := by
  have hold : (s.thread j).pc.failed = true → Unsignalled m' (s.thread j) →
      ∃ k, (Function.update s.thread i t' k).serves (s.thread j).high = true := by
    intro hpc hnot
    cases hhigh : (s.thread j).high with
    | true => exact h.served_high hp j hpc hhigh hnot
    | false => exact h.served_low hp j hpc hhigh hnot
  by_cases heq : j = i
  · subst heq
    rw [Function.update_self] at hpc hnot ⊢
    rcases hp.failed hpc with ⟨hpc', hhigh, hcount⟩ | ⟨htaken, hnone⟩
    · rw [hhigh]
      exact hold hpc' (by rwa [Unsignalled, ← hhigh, ← hcount])
    · -- It has just found the mutex taken, by another thread.
      obtain ⟨k, hk⟩ := h.exclusive.word.mp htaken
      have hne : k ≠ j := fun heq => by simp [heq, hnone] at hk
      exact ⟨k, by rw [Function.update_of_ne hne]; exact Thread.serves_of_owns hk _⟩
  · rw [Function.update_of_ne heq] at hpc hnot ⊢
    exact hold hpc hnot

theorem proceeds (hmoves : Moves i s.mutex (s.thread i) m' t') :
    Attended prio ({ s with mutex := m' }.setThread i t') where
  exclusive := h.exclusive.moves hmoves
  pos high := (h.pos high).trans_le (hp.events high).signalCount_le
  high j := by
    by_cases heq : j = i
    · subst heq
      simp only [State.setThread, Function.update_self]
      exact fun hhigh => (hp.high hhigh).elim (h.high j) id
    · simpa [State.setThread, heq] using h.high j
  onlyHigh j := by
    by_cases heq : j = i
    · subst heq
      simpa [State.setThread] using hp.onlyHigh
    · simpa [State.setThread, heq] using h.onlyHigh j
  recorded j := by
    by_cases heq : j = i
    · subst heq
      simpa [State.setThread] using hp.recorded
    · simp only [State.setThread, Function.update_of_ne heq]
      exact fun hpc => (h.recorded j hpc).follows (hp.events _)
  counted := by
    have hcount := count_update (p := Thread.counted) (f := s.thread) i t'
    have hcounted := hp.counted
    have hold := h.counted
    simp only [State.setThread]
    omega
  noticed := h.noticed_proceeds hp
  served := h.served_proceeds hp

end Proceeds

theorem step (h : Attended prio s) (hstep : Step prio rounds s e s') : Attended prio s' := by
  obtain ⟨henabled, rfl⟩ := hstep
  cases e with
  | enter i high =>
    have howns : Pc.enter.owns = (s.thread i).pc.owns := by rw [henabled.1]; rfl
    have hnamed : Pc.enter.named = (s.thread i).pc.named := by rw [henabled.1]; rfl
    refine h.proceeds (proceeds_call (.inl henabled.1) (.inl rfl) howns fun hhigh => ?_)
      (moves_call howns hnamed)
    exact .inr (henabled.2 hhigh)
  | enterNowait i =>
    have hidle : (s.thread i).pc = .idle := henabled
    have howns : Pc.enterNowait.owns = (s.thread i).pc.owns := by rw [hidle]; rfl
    have hnamed : Pc.enterNowait.named = (s.thread i).pc.named := by rw [hidle]; rfl
    refine h.proceeds (proceeds_call (.inl hidle) (.inr (.inl rfl)) howns fun hhigh => ?_)
      (moves_call howns hnamed)
    exact absurd hhigh Bool.false_ne_true
  | exit i =>
    have hheld : (s.thread i).pc = .held := henabled
    have howns : Pc.exitOwner.owns = (s.thread i).pc.owns := by rw [hheld]; rfl
    have hnamed : Pc.exitOwner.named = (s.thread i).pc.named := by rw [hheld]; rfl
    exact h.proceeds (proceeds_call (.inr hheld) (.inr (.inr rfl)) howns .inl)
      (moves_call howns hnamed)
  | step i =>
    refine h.proceeds (proceeds_next h.pos (h.recorded i) (h.onlyHigh i) fun hcounted => ?_)
      (moves_next s.mutex i (s.thread i))
    rw [h.counted]
    exact count_pos_iff.mpr ⟨i, hcounted⟩
  | wake high => exact h.wake high

end Attended

theorem attended_of_run {trace : List (Event n)} (hrun : Run (Step prio rounds) (initial n) trace s) :
    Attended prio s :=
  hrun.invariant (P := fun _ s => Attended prio s) attended_initial
    fun _ _ _ _ _ h hstep => h.step hstep

theorem Attended.blocked_iff (h : Attended prio s) (i : Fin n) :
    Blocked s i ↔ (s.thread i).pc = .wait ∧ Unsignalled s.mutex (s.thread i) := by
  refine and_congr_right fun hpc => ?_
  have hrecorded := h.recorded i (by rw [hpc]; rfl)
  rw [hrecorded.passes_iff, Unsignalled]
  have hle := hrecorded.le
  omega

/-- Who serves a waiter of high priority is awake. -/
theorem not_blocked_of_serves_high (hserves : (s.thread i).serves true = true) :
    (s.thread i).pc ≠ .idle ∧ ¬ Blocked s i := by
  refine ⟨fun hidle => ?_, fun hblocked => ?_⟩
  · simp [Thread.serves, hidle, Pc.owns] at hserves
  · simp [Thread.serves, hblocked.1, Pc.owns] at hserves

/-- Some thread inside the functions, or holding the mutex, is awake while anybody sleeps. -/
theorem Attended.exists_awake (h : Attended prio s) (hblocked : Blocked s i) :
    ∃ j, (s.thread j).pc ≠ .idle ∧ ¬ Blocked s j := by
  have hservedHigh : ∀ j, Blocked s j → (s.thread j).high = true →
      ∃ k, (s.thread k).pc ≠ .idle ∧ ¬ Blocked s k := by
    intro j hj hhigh
    obtain ⟨hpc, hnot⟩ := (h.blocked_iff j).mp hj
    obtain ⟨k, hk⟩ := h.served j (by rw [hpc]; rfl) hnot
    exact ⟨k, not_blocked_of_serves_high (hhigh ▸ hk)⟩
  obtain ⟨hpc, hnot⟩ := (h.blocked_iff i).mp hblocked
  obtain ⟨k, hk⟩ := h.served i (by rw [hpc]; rfl) hnot
  by_cases hsleeps : Blocked s k
  · -- Only a thread of high priority may serve while it sleeps, and it is served itself.
    refine hservedHigh k hsleeps ?_
    by_contra hlow
    cases hhigh : (s.thread i).high <;>
      simp_all [Thread.serves, hsleeps.1, Pc.owns, Pc.entering]
  · refine ⟨k, fun hidle => ?_, hsleeps⟩
    cases hhigh : (s.thread i).high <;> simp_all [Thread.serves, Pc.owns, Pc.entering]

/-- The second thread goes to sleep while the first one holds the mutex. -/
def putToSleep (high : Bool) : List (Event 2) :=
  [.enter 0 false, .step 0, .step 0, .enter 1 high] ++ List.replicate 10 (.step 1)

/-- The number of high priority waiters that `mutex_exit_func` reads is the number of threads that have
announced themselves with high priority and not withdrawn. -/
theorem highPriorityWaiters_eq_count (trace : List (Event n)) (s : State n)
    (hrun : Run (Step prio rounds) (initial n) trace s) :
    s.mutex.highPriorityWaiters = count Thread.counted s.thread :=
  (attended_of_run hrun).counted

end Multicore.Mutex
