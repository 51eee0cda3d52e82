import Mathlib.Data.Fintype.Card
import Mathlib.Logic.Function.Basic
import Multicore.Base.Run
import Multicore.Mutex.Event

/-!
# The mutex of the buffer pool

`mutex_enter_func`, `mutex_enter_nowait_func`, `mutex_spin_wait`, `mutex_exit_func` and
`mutex_signal_object` of `sync0sync.cc` and `sync0sync.ic`, for mutexes and for priority mutexes. Every
access to a field of the mutex is a step: the test-and-set of the lock word, its reset, the reads and
writes of `waiters` and of the number of high priority waiters, and the calls that set or reset an event.

The cell of the wait array a thread reserves is its own, so the thread keeps what the cell would: the
count at which it has reset the event. The wake-up call that the server makes about once a second
(`sync_arr_wake_threads_if_sema_free`) may come at any time, and it may set any of the two events.
-/

namespace Multicore.Mutex

/-- `ib_prio_mutex_t` with the `ib_mutex_t` it begins with; a mutex without priorities leaves the last
two fields alone. -/
structure IbMutex (n : ℕ) where
  lockWord : Bool
  waiters : Bool
  event : OsEvent
  threadId : Option (Fin n)
  highPriorityWaiters : ℕ
  highPriorityEvent : OsEvent

/-- Where a thread is; each constructor names the next action. -/
inductive Pc where
  | idle
  /-- The first test-and-set, in `mutex_enter_func`. -/
  | enter
  | enterNowait
  /-- The loop that reads the lock word, in its round `i`. -/
  | spin (i : ℕ)
  | spinSet (i : ℕ)
  | reserve
  | announce
  /-- The four tries after the announcement. -/
  | retry (i : ℕ)
  | retryOwner
  | retryWithdraw
  | beginWait
  | wait
  | woken
  | setOwner
  | held
  | exitOwner
  | exitWord
  | exitHigh
  | signalHigh
  | exitWaiters
  | clearWaiters
  | signal
  deriving DecidableEq, Repr

structure Thread where
  pc : Pc
  /-- The `high_priority` of its request. -/
  high : Bool
  /-- `signal_count` of its cell. -/
  signalCount : ℕ
  deriving DecidableEq, Repr

structure State (n : ℕ) where
  mutex : IbMutex n
  thread : Fin n → Thread

variable {n : ℕ}

/-- `mutex_create_func`; the memory it works on holds no thread id. -/
def initial (n : ℕ) : State n where
  mutex := ⟨false, false, .create, none, 0, .create⟩
  thread _ := ⟨.idle, false, 0⟩

/-- `sync_cell_get_event` -/
def IbMutex.cellEvent (m : IbMutex n) (high : Bool) : OsEvent :=
  if high then m.highPriorityEvent else m.event

def IbMutex.setCellEvent (m : IbMutex n) (high : Bool) (e : OsEvent) : IbMutex n :=
  if high then { m with highPriorityEvent := e } else { m with event := e }

/-- `ib_mutex_test_and_set`: the thread goes on at `got` or at `lost`. -/
def testAndSet (m : IbMutex n) (t : Thread) (got lost : Pc) : IbMutex n × Thread :=
  if m.lockWord then (m, { t with pc := lost })
  else ({ m with lockWord := true }, { t with pc := got })

/-- The next action of thread `i`. `prio` tells whether the mutex is a priority mutex, `rounds` is
`SYNC_SPIN_ROUNDS`. -/
def next (prio : Bool) (rounds : ℕ) (m : IbMutex n) (i : Fin n) (t : Thread) : IbMutex n × Thread :=
  match t.pc with
  | .idle | .held => (m, t)
  | .enter => testAndSet m t .setOwner (.spin 0)
  | .enterNowait => testAndSet m t .setOwner .idle
  -- `mutex_spin_wait`
  | .spin k =>
    (m, { t with pc := if m.lockWord = true ∧ k < rounds then .spin (k + 1) else .spinSet k })
  | .spinSet k => testAndSet m t .setOwner (if k + 1 < rounds then .spin (k + 1) else .reserve)
  | .reserve =>
    (m.setCellEvent t.high (m.cellEvent t.high).reset,
      { t with pc := .announce, signalCount := (m.cellEvent t.high).signalCount })
  | .announce =>
    (if t.high then { m with highPriorityWaiters := m.highPriorityWaiters + 1 }
      else { m with waiters := true }, { t with pc := .retry 0 })
  | .retry k => testAndSet m t .retryOwner (if k + 1 < 4 then .retry (k + 1) else .beginWait)
  | .retryOwner =>
    ({ m with threadId := some i }, { t with pc := if t.high then .retryWithdraw else .held })
  | .retryWithdraw =>
    ({ m with highPriorityWaiters := m.highPriorityWaiters - 1 }, { t with pc := .held })
  | .beginWait =>
    (m, { t with pc := .wait, signalCount := (m.cellEvent t.high).waitCount t.signalCount })
  | .wait => (m, { t with pc := if t.high then .woken else .spin 0 })
  | .woken => ({ m with highPriorityWaiters := m.highPriorityWaiters - 1 }, { t with pc := .spin 0 })
  | .setOwner => ({ m with threadId := some i }, { t with pc := .held })
  -- `mutex_exit_func`
  | .exitOwner => ({ m with threadId := none }, { t with pc := .exitWord })
  | .exitWord =>
    ({ m with lockWord := false }, { t with pc := if prio then .exitHigh else .exitWaiters })
  | .exitHigh =>
    (m, { t with pc := if m.highPriorityWaiters ≠ 0 then .signalHigh else .exitWaiters })
  | .signalHigh => ({ m with highPriorityEvent := m.highPriorityEvent.set }, { t with pc := .idle })
  | .exitWaiters => (m, { t with pc := if m.waiters then .clearWaiters else .idle })
  -- `mutex_signal_object`
  | .clearWaiters => ({ m with waiters := false }, { t with pc := .signal })
  | .signal => ({ m with event := m.event.set }, { t with pc := .idle })

/-- A thread calls one of the functions, takes its next step inside one, or the server sets an event. -/
inductive Event (n : ℕ) where
  | enter (i : Fin n) (high : Bool)
  | enterNowait (i : Fin n)
  | exit (i : Fin n)
  | step (i : Fin n)
  | wake (high : Bool)
  deriving DecidableEq, Repr

/-- Thread `i` sleeps in `os_event_wait_low`. -/
def Blocked (s : State n) (i : Fin n) : Prop :=
  (s.thread i).pc = .wait ∧
    ¬ (s.mutex.cellEvent (s.thread i).high).Passes (s.thread i).signalCount

instance (s : State n) (i : Fin n) : Decidable (Blocked s i) := inferInstanceAs (Decidable (_ ∧ _))

/-- Only a priority mutex is requested with high priority, and only its holder leaves a mutex. -/
def Enabled (prio : Bool) (s : State n) : Event n → Prop
  | .enter i high => (s.thread i).pc = .idle ∧ (high = true → prio = true)
  | .enterNowait i => (s.thread i).pc = .idle
  | .exit i => (s.thread i).pc = .held
  | .step i => ((s.thread i).pc ≠ .idle ∧ (s.thread i).pc ≠ .held) ∧ ¬ Blocked s i
  | .wake _ => True

instance decidableEnabled (prio : Bool) (s : State n) : ∀ e, Decidable (Enabled prio s e)
  | .enter _ _ => inferInstanceAs (Decidable (_ ∧ _))
  | .enterNowait _ => inferInstanceAs (Decidable (_ = _))
  | .exit _ => inferInstanceAs (Decidable (_ = _))
  | .step _ => inferInstanceAs (Decidable (_ ∧ _))
  | .wake _ => inferInstanceAs (Decidable True)

def State.setThread (s : State n) (i : Fin n) (t : Thread) : State n :=
  { s with thread := Function.update s.thread i t }

def effect (prio : Bool) (rounds : ℕ) (s : State n) : Event n → State n
  | .enter i high => s.setThread i { s.thread i with pc := .enter, high := high }
  | .enterNowait i => s.setThread i { s.thread i with pc := .enterNowait, high := false }
  | .exit i => s.setThread i { s.thread i with pc := .exitOwner }
  | .step i =>
    { s with mutex := (next prio rounds s.mutex i (s.thread i)).1 }.setThread i
      (next prio rounds s.mutex i (s.thread i)).2
  | .wake high => { s with mutex := s.mutex.setCellEvent high (s.mutex.cellEvent high).set }

abbrev Step (prio : Bool) (rounds : ℕ) : State n → Event n → State n → Prop :=
  Fires (Enabled prio) (effect prio rounds)

/-- `mutex_own`, as the debug version asks it. -/
def mutexOwn (s : State n) (i : Fin n) : Bool :=
  s.mutex.lockWord && decide (s.mutex.threadId = some i)

end Multicore.Mutex
