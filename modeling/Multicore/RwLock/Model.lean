import Mathlib.Data.Int.Basic
import Mathlib.Logic.Function.Basic
import Multicore.Base.Run
import Multicore.Mutex.Event

/-!
# The read-write lock of the buffer pool

`rw_lock_s_lock_func`, `rw_lock_x_lock_func`, `rw_lock_x_lock_func_nowait`, `rw_lock_s_unlock_func`,
`rw_lock_x_unlock_func` and `rw_lock_x_lock_move_ownership` of `sync0rw.cc` and `sync0rw.ic` with the
functions they call, for locks and for priority locks, in the version with atomic operations. Every
access to a field of the lock is a step, and so is every call that sets or resets an event; the plain
`lock_word -= X_LOCK_DECR` of a relock is a load and a store.

The fields written for diagnosis and the statistics are left out. The cell of the wait array is the
thread's own, as in the model of the mutex, and the server may set any of the events at any time. A lock
taken with a pass value may be handed to another thread, which then releases it.
-/

namespace Multicore.RwLock

/-- `X_LOCK_DECR` -/
def xLockDecr : ℤ := 0x00100000

/-- `prio_rw_lock_t` with the `rw_lock_t` it begins with; a lock without priorities leaves the last five
fields alone. The thread id that `rw_lock_create_func` clears is `none`. -/
structure PrioRwLock (n : ℕ) where
  lockWord : ℤ
  waiters : Bool
  recursive : Bool
  writerThread : Option (Fin n)
  event : OsEvent
  waitExEvent : OsEvent
  highPrioritySWaiters : ℕ
  highPrioritySEvent : OsEvent
  highPriorityXWaiters : ℕ
  highPriorityXEvent : OsEvent
  highPriorityWaitExWaiter : Bool

/-- The place a function is called from. -/
inductive Site where
  /-- The first try: in `rw_lock_s_lock_func`, or at `lock_loop` of `rw_lock_x_lock_func`. -/
  | first
  /-- Before the spin loop. -/
  | spin
  /-- The try after the spin loop of `rw_lock_s_lock_spin`. -/
  | again
  /-- The try after the announcement. -/
  | last
  | nowait
  | moveOwnership
  deriving DecidableEq, Repr

/-- Where a thread is; each constructor names the next action. -/
inductive Pc where
  | idle
  -- the three reads of `rw_lock_higher_prio_waiters_exist`
  | askWaitEx
  | askS
  | askX
  | spin
  | loadRecursive
  -- `rw_lock_lock_word_decr`
  | load
  | cas
  | casFree
  | assertRecursive
  -- `rw_lock_set_writer_id_and_recursion_flag`
  | loadWriter
  | casWriter
  | setRecursive
  -- `rw_lock_x_lock_wait`
  | setWaitEx
  | waitEx
  | reserveEx
  | testEx
  | beginWaitEx
  | sleepEx
  | clearWaitEx
  | testWriter
  | relockTest
  | relockLoad
  | relockStore
  | reserve
  | announce
  | withdraw
  | beginWait
  | sleep
  | woken
  | sUnlock
  | signalEx
  -- `rw_lock_x_prepare_unlock`
  | xPrepare
  | xClear
  | xTestZero
  | xTestMinus
  | xUnlock
  | readHighX
  | signalHighX
  | readHighS
  | signalHighS
  | readWaiters
  | resetWaiters
  | signal
  /-- An assertion of the release version has failed. -/
  | failed
  deriving DecidableEq, Repr

structure Thread (n : ℕ) where
  pc : Pc
  site : Site
  /-- The request is one for an exclusive lock. -/
  exclusive : Bool
  high : Bool
  /-- The pass value is not 0. -/
  pass : Bool
  spins : ℕ
  localLockWord : ℤ
  /-- What a relock takes from the lock word, or `x_lock_incr`. -/
  amount : ℤ
  localRecursive : Bool
  localThread : Option (Fin n)
  /-- `signal_count` of its cell. -/
  signalCount : ℕ
  /-- The thread has a shared lock to release. -/
  sHeld : Bool
  /-- How many exclusive locks the thread has to release. -/
  xHeld : ℕ

structure State (n : ℕ) where
  lock : PrioRwLock n
  thread : Fin n → Thread n

variable {n : ℕ}

/-- `rw_lock_create_func` -/
def initial (n : ℕ) : State n where
  lock := ⟨xLockDecr, false, false, none, .create, .create, 0, .create, 0, .create, false⟩
  thread _ := ⟨.idle, .first, false, false, false, 0, 0, 0, false, none, 0, false, 0⟩

/-! ### Inside the functions -/

/-- The events of a lock. -/
inductive Signal where
  | all
  | waitEx
  | highS
  | highX
  deriving DecidableEq, Repr

def PrioRwLock.eventOf (l : PrioRwLock n) : Signal → OsEvent
  | .all => l.event
  | .waitEx => l.waitExEvent
  | .highS => l.highPrioritySEvent
  | .highX => l.highPriorityXEvent

/-- `os_event_set` or `os_event_reset` on one of the events. -/
def PrioRwLock.onEvent (l : PrioRwLock n) (which : Signal) (f : OsEvent → OsEvent) : PrioRwLock n :=
  match which with
  | .all => { l with event := f l.event }
  | .waitEx => { l with waitExEvent := f l.waitExEvent }
  | .highS => { l with highPrioritySEvent := f l.highPrioritySEvent }
  | .highX => { l with highPriorityXEvent := f l.highPriorityXEvent }

/-- `sync_cell_get_event` for a thread that waits for the lock. -/
def Thread.cell (t : Thread n) : Signal :=
  if t.high then if t.exclusive then .highX else .highS else .all

def PrioRwLock.announceWaiter (l : PrioRwLock n) (t : Thread n) : PrioRwLock n :=
  if t.high then
    if t.exclusive then { l with highPriorityXWaiters := l.highPriorityXWaiters + 1 }
    else { l with highPrioritySWaiters := l.highPrioritySWaiters + 1 }
  else { l with waiters := true }

def PrioRwLock.withdrawWaiter (l : PrioRwLock n) (t : Thread n) : PrioRwLock n :=
  if t.exclusive then { l with highPriorityXWaiters := l.highPriorityXWaiters - 1 }
  else { l with highPrioritySWaiters := l.highPrioritySWaiters - 1 }

def Thread.goTo (t : Thread n) (target : Site × Pc) : Thread n :=
  { t with site := target.1, pc := target.2 }

/-- No waiters of higher priority exist: into the spin loop, `rw_lock_x_lock_low` or
`rw_lock_s_lock_low`. -/
def Thread.attempt (t : Thread n) (site : Site) : Site × Pc :=
  match site with
  | .spin => (site, .spin)
  | _ => (site, if t.exclusive then .loadRecursive else .load)

/-- `rw_lock_higher_prio_waiters_exist` -/
def Thread.ask (prio : Bool) (t : Thread n) (site : Site) : Site × Pc :=
  if prio = true ∧ t.high = false then (site, .askWaitEx) else t.attempt site

/-- Waiters of higher priority exist, or the try has failed. -/
def Thread.refused (prio : Bool) (rounds : ℕ) (t : Thread n) : Site × Pc :=
  match t.site with
  | .first => t.ask prio .spin
  | .spin => if t.exclusive then (t.site, .reserve) else t.ask prio .again
  | .again => if 0 < t.spins ∧ t.spins < rounds then t.ask prio .spin else (t.site, .reserve)
  | .last => (t.site, .beginWait)
  | .nowait | .moveOwnership => (t.site, .idle)

/-- The lock has been got. -/
def Thread.granted (t : Thread n) : Pc := if t.site = .last ∧ t.high = true then .withdraw else .idle

/-- `lock_loop` after a wait. -/
def Thread.lockLoop (prio : Bool) (t : Thread n) : Site × Pc :=
  t.ask prio (if t.exclusive then .first else .spin)

/-- The recursion flag that the three callers of `rw_lock_set_writer_id_and_recursion_flag` give. -/
def Thread.recursionFlag (t : Thread n) : Bool :=
  match t.site with
  | .nowait | .moveOwnership => true
  | _ => !t.pass

/-- The next action of thread `i`. `prio` tells whether the lock is a priority lock, `rounds` is
`SYNC_SPIN_ROUNDS`. -/
def next (prio : Bool) (rounds : ℕ) (l : PrioRwLock n) (i : Fin n) (t : Thread n) :
    PrioRwLock n × Thread n :=
  match t.pc with
  | .idle | .failed => (l, t)
  | .askWaitEx =>
    (l, if l.highPriorityWaitExWaiter then t.goTo (t.refused prio rounds) else { t with pc := .askS })
  | .askS =>
    (l, if 0 < l.highPrioritySWaiters then t.goTo (t.refused prio rounds) else { t with pc := .askX })
  | .askX =>
    (l, t.goTo (if 0 < l.highPriorityXWaiters then t.refused prio rounds else t.attempt t.site))
  | .spin =>
    (l, if t.spins < rounds ∧ l.lockWord ≤ 0 then { t with spins := t.spins + 1 }
      else if t.exclusive then
        t.goTo (if rounds ≤ t.spins then (t.site, .reserve) else t.ask prio .first)
      else t.goTo (t.ask prio .again))
  | .loadRecursive =>
    (l, { t with
      localRecursive := l.recursive, pc := if t.site = .nowait then .casFree else .load })
  | .load =>
    (l, if 0 < l.lockWord then { t with localLockWord := l.lockWord, pc := .cas }
      else if t.exclusive = true ∧ t.pass = false ∧ t.localRecursive = true then
        { t with pc := .testWriter }
      else t.goTo (t.refused prio rounds))
  | .cas =>
    if l.lockWord = t.localLockWord then
      if t.exclusive then
        ({ l with lockWord := t.localLockWord - xLockDecr },
          { t with xHeld := t.xHeld + 1, pc := .assertRecursive })
      else
        ({ l with lockWord := t.localLockWord - 1 }, { t with sHeld := true, pc := t.granted })
    else (l, { t with pc := .load })
  | .casFree =>
    if l.lockWord = xLockDecr then
      ({ l with lockWord := 0 }, { t with xHeld := t.xHeld + 1, pc := .loadWriter })
    else
      (l, if t.localRecursive then { t with pc := .testWriter } else t.goTo (t.refused prio rounds))
  | .assertRecursive => (l, { t with pc := if l.recursive then .failed else .loadWriter })
  | .loadWriter => (l, { t with localThread := l.writerThread, pc := .casWriter })
  | .casWriter =>
    if l.writerThread = t.localThread then
      ({ l with writerThread := some i }, { t with pc := .setRecursive })
    else (l, { t with pc := .failed })
  | .setRecursive =>
    ({ l with recursive := t.recursionFlag },
      match t.site with
      | .nowait | .moveOwnership => { t with pc := .idle }
      | _ => { t with spins := 0, pc := if t.high then .setWaitEx else .waitEx })
  | .setWaitEx => ({ l with highPriorityWaitExWaiter := true }, { t with pc := .waitEx })
  | .waitEx =>
    (l, if l.lockWord < 0 then
        if t.spins < rounds then { t with spins := t.spins + 1 } else { t with pc := .reserveEx }
      else { t with pc := if t.high then .clearWaitEx else t.granted })
  | .reserveEx =>
    (l.onEvent .waitEx OsEvent.reset,
      { t with signalCount := (l.eventOf .waitEx).signalCount, spins := 0, pc := .testEx })
  | .testEx => (l, { t with pc := if l.lockWord < 0 then .beginWaitEx else .waitEx })
  | .beginWaitEx =>
    (l, { t with signalCount := (l.eventOf .waitEx).waitCount t.signalCount, pc := .sleepEx })
  | .sleepEx => (l, { t with pc := .waitEx })
  | .clearWaitEx => ({ l with highPriorityWaitExWaiter := false }, { t with pc := t.granted })
  -- the relock
  | .testWriter =>
    (l, if l.writerThread = some i then { t with pc := .relockTest }
      else t.goTo (t.refused prio rounds))
  | .relockTest =>
    (l, if l.lockWord = 0 then
        if t.site = .nowait then { t with localLockWord := -xLockDecr, pc := .relockStore }
        else { t with amount := xLockDecr, pc := .relockLoad }
      else { t with amount := 1, pc := .relockLoad })
  | .relockLoad => (l, { t with localLockWord := l.lockWord - t.amount, pc := .relockStore })
  | .relockStore =>
    ({ l with lockWord := t.localLockWord }, { t with xHeld := t.xHeld + 1, pc := t.granted })
  -- the wait
  | .reserve =>
    (l.onEvent t.cell OsEvent.reset,
      { t with signalCount := (l.eventOf t.cell).signalCount, pc := .announce })
  | .announce =>
    (l.announceWaiter t, t.goTo (if t.exclusive then t.attempt .last else t.ask prio .last))
  | .withdraw => (l.withdrawWaiter t, { t with pc := .idle })
  | .beginWait =>
    (l, { t with signalCount := (l.eventOf t.cell).waitCount t.signalCount, pc := .sleep })
  | .sleep =>
    (l, if t.high then { t with pc := .woken } else { t with spins := 0 }.goTo (t.lockLoop prio))
  | .woken => (l.withdrawWaiter t, { t with spins := 0 }.goTo (t.lockLoop prio))
  -- the release of a shared lock
  | .sUnlock =>
    ({ l with lockWord := l.lockWord + 1 },
      { t with
        sHeld := false
        pc := if l.lockWord + 1 = 0 then .signalEx
          else if prio = true ∧ l.lockWord + 1 = xLockDecr then .readWaiters else .idle })
  | .signalEx => (l.onEvent .waitEx OsEvent.set, { t with pc := .idle })
  -- the release of an exclusive lock
  | .xPrepare => (l, { t with pc := if l.lockWord = 0 then .xClear else .xTestZero })
  | .xClear => ({ l with recursive := false }, { t with pc := .xTestZero })
  | .xTestZero =>
    (l, if l.lockWord = 0 then { t with amount := xLockDecr, pc := .xUnlock }
      else { t with pc := .xTestMinus })
  | .xTestMinus =>
    (l, { t with amount := if l.lockWord = -xLockDecr then xLockDecr else 1, pc := .xUnlock })
  | .xUnlock =>
    ({ l with lockWord := l.lockWord + t.amount },
      { t with
        xHeld := t.xHeld - 1
        pc := if l.lockWord + t.amount = xLockDecr then if prio then .readHighX else .readWaiters
          else .idle })
  | .readHighX =>
    (l, { t with pc := if l.highPriorityXWaiters ≠ 0 then .signalHighX else .readHighS })
  | .signalHighX => (l.onEvent .highX OsEvent.set, { t with pc := .idle })
  | .readHighS =>
    (l, { t with pc := if l.highPrioritySWaiters ≠ 0 then .signalHighS else .readWaiters })
  | .signalHighS => (l.onEvent .highS OsEvent.set, { t with pc := .idle })
  | .readWaiters => (l, { t with pc := if l.waiters then .resetWaiters else .idle })
  | .resetWaiters => ({ l with waiters := false }, { t with pc := .signal })
  | .signal => (l.onEvent .all OsEvent.set, { t with pc := .idle })

/-! ### The functions and their callers -/

inductive Call where
  | sLock (high : Bool)
  | xLock (high pass : Bool)
  | xLockNowait
  | sUnlock
  | xUnlock
  | moveOwnership
  deriving DecidableEq, Repr

/-- A thread calls one of the functions, takes its next step inside one, or hands a lock over; or the
server sets an event. -/
inductive Event (n : ℕ) where
  | call (i : Fin n) (c : Call)
  | step (i : Fin n)
  | passShared (i j : Fin n)
  | passExclusive (i j : Fin n)
  | wake (which : Signal)
  deriving DecidableEq, Repr

/-- Thread `i` sleeps in `os_event_wait_low`. -/
def Blocked (s : State n) (i : Fin n) : Prop :=
  ((s.thread i).pc = .sleepEx ∧ ¬ (s.lock.eventOf .waitEx).Passes (s.thread i).signalCount) ∨
    ((s.thread i).pc = .sleep ∧
      ¬ (s.lock.eventOf (s.thread i).cell).Passes (s.thread i).signalCount)

instance (s : State n) (i : Fin n) : Decidable (Blocked s i) := inferInstanceAs (Decidable (_ ∨ _))

/-- The thread is outside the functions and holds nothing. -/
def Thread.Free (t : Thread n) : Prop := t.pc = .idle ∧ t.sHeld = false ∧ t.xHeld = 0

instance (t : Thread n) : Decidable t.Free := inferInstanceAs (Decidable (_ ∧ _))

/-- What the callers promise. Nobody asks for a shared lock who holds a lock already, nor for an
exclusive lock who holds a shared one; the holder of an exclusive lock may ask for another one without a
pass value, unless the first was taken with one, and it does not come to `X_LOCK_DECR` locks. Locks are
released by their holders. -/
def Thread.MayCall (prio : Bool) (l : PrioRwLock n) (t : Thread n) : Call → Prop
  | .sLock high => (t.sHeld = false ∧ t.xHeld = 0) ∧ (high = true → prio = true)
  | .xLock high pass =>
    (t.sHeld = false ∧ (high = true → prio = true)) ∧ (t.xHeld : ℤ) < xLockDecr ∧
      (t.xHeld = 0 ∨ (pass = false ∧ l.recursive = true))
  | .xLockNowait => (t.xHeld : ℤ) < xLockDecr
  | .sUnlock => t.sHeld = true
  | .xUnlock | .moveOwnership => 0 < t.xHeld

instance decidableMayCall (prio : Bool) (l : PrioRwLock n) (t : Thread n) :
    ∀ c, Decidable (t.MayCall prio l c)
  | .sLock _ => inferInstanceAs (Decidable (_ ∧ _))
  | .xLock _ _ => inferInstanceAs (Decidable (_ ∧ _))
  | .xLockNowait => inferInstanceAs (Decidable (_ < _))
  | .sUnlock => inferInstanceAs (Decidable (_ = _))
  | .xUnlock => inferInstanceAs (Decidable (_ < _))
  | .moveOwnership => inferInstanceAs (Decidable (_ < _))

/-- A lock is handed to a thread that holds nothing, and an exclusive one only if it was taken with a
pass value. -/
def Enabled (prio : Bool) (s : State n) : Event n → Prop
  | .call i c => (s.thread i).pc = .idle ∧ (s.thread i).MayCall prio s.lock c
  | .step i => ((s.thread i).pc ≠ .idle ∧ (s.thread i).pc ≠ .failed) ∧ ¬ Blocked s i
  | .passShared i j => (s.thread i).pc = .idle ∧ (s.thread i).sHeld = true ∧ (s.thread j).Free
  | .passExclusive i j =>
    (s.thread i).pc = .idle ∧ (s.thread i).xHeld = 1 ∧ s.lock.recursive = false ∧ (s.thread j).Free
  | .wake _ => True

instance decidableEnabled (prio : Bool) (s : State n) : ∀ e, Decidable (Enabled prio s e)
  | .call _ _ => inferInstanceAs (Decidable (_ ∧ _))
  | .step _ => inferInstanceAs (Decidable (_ ∧ _))
  | .passShared _ _ => inferInstanceAs (Decidable (_ ∧ _))
  | .passExclusive _ _ => inferInstanceAs (Decidable (_ ∧ _))
  | .wake _ => inferInstanceAs (Decidable True)

def State.setThread (s : State n) (i : Fin n) (t : Thread n) : State n :=
  { s with thread := Function.update s.thread i t }

/-- The thread enters a function. -/
def Thread.call (prio : Bool) (t : Thread n) : Call → Thread n
  | .sLock high =>
    let t := { t with exclusive := false, high := high, pass := false, spins := 0 }
    t.goTo (t.ask prio .first)
  | .xLock high pass =>
    let t := { t with exclusive := true, high := high, pass := pass, spins := 0 }
    t.goTo (t.ask prio .first)
  | .xLockNowait =>
    { t with exclusive := true, high := false, pass := false, site := .nowait, pc := .loadRecursive }
  | .sUnlock => { t with pc := .sUnlock }
  | .xUnlock => { t with pc := .xPrepare }
  | .moveOwnership =>
    { t with exclusive := true, high := false, pass := false, site := .moveOwnership, pc := .loadWriter }

def effect (prio : Bool) (rounds : ℕ) (s : State n) : Event n → State n
  | .call i c => s.setThread i ((s.thread i).call prio c)
  | .step i =>
    { s with lock := (next prio rounds s.lock i (s.thread i)).1 }.setThread i
      (next prio rounds s.lock i (s.thread i)).2
  | .passShared i j =>
    (s.setThread i { s.thread i with sHeld := false }).setThread j { s.thread j with sHeld := true }
  | .passExclusive i j =>
    (s.setThread i { s.thread i with xHeld := 0 }).setThread j { s.thread j with xHeld := 1 }
  | .wake which => { s with lock := s.lock.onEvent which OsEvent.set }

abbrev Step (prio : Bool) (rounds : ℕ) : State n → Event n → State n → Prop :=
  Fires (Enabled prio) (effect prio rounds)

/-! ### What the lock tells about itself -/

inductive Writer where
  | notLocked
  | ex
  | waitEx
  deriving DecidableEq, Repr

/-- `rw_lock_get_writer` -/
def PrioRwLock.getWriter (l : PrioRwLock n) : Writer :=
  if 0 < l.lockWord then .notLocked
  else if l.lockWord = 0 ∨ l.lockWord ≤ -xLockDecr then .ex else .waitEx

/-- `rw_lock_get_reader_count` -/
def PrioRwLock.getReaderCount (l : PrioRwLock n) : ℤ :=
  if 0 < l.lockWord then xLockDecr - l.lockWord
  else if l.lockWord < 0 ∧ -xLockDecr < l.lockWord then -l.lockWord else 0

/-- `rw_lock_get_x_lock_count` -/
def PrioRwLock.getXLockCount (l : PrioRwLock n) : ℤ :=
  if l.lockWord ≠ 0 ∧ -xLockDecr < l.lockWord then 0
  else if l.lockWord = 0 then 1 else 2 - (l.lockWord + xLockDecr)

/-- `rw_lock_validate`, but for the magic number. -/
def PrioRwLock.Valid (l : PrioRwLock n) : Prop := -(2 * xLockDecr) < l.lockWord ∧ l.lockWord ≤ xLockDecr

end Multicore.RwLock
