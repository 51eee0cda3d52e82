import Multicore.RwLock.Moves

/-!
# What a thread does for those who wait

`os_event_set` is called only where somebody may sleep: the last reader wakes the next writer, and the
last writer wakes the waiting writers of high priority, or the waiting readers of high priority, or the
others. A thread that goes to sleep relies on another one that will come past such a place: it holds a
lock, is already on the way from its release to the signal, or wants the lock with a higher priority and
will hold it first. `Thread.serves` is this relation, for each of the four events of a lock.

`Proceeds` says of one step of one thread all that those who wait look at. A thread gets to await an
event only after a refusal (`Refusal`), and it gives up serving one only by setting the event or in one
of a few situations in which somebody else is there (`Relief`). `proceeds_next` proves it for every line
of the functions, `proceeds_call` for their callers.
-/

namespace Multicore.RwLock

variable {n : ℕ} {prio : Bool} {rounds : ℕ} {i : Fin n} {l l' : PrioRwLock n} {t t' : Thread n}

/-- The thread is between a question and the answer of `rw_lock_lock_word_decr`. -/
def Pc.tries : Pc → Bool
  | .askWaitEx | .askS | .askX | .loadRecursive | .load | .cas | .testWriter => true
  | _ => false

/-- The thread is inside `rw_lock_s_lock_func` or `rw_lock_x_lock_func` and has not got the lock. -/
def Pc.requests : Pc → Bool
  | .spin | .reserve | .announce | .beginWait | .sleep | .woken => true
  | pc => pc.tries

/-- The thread is in `rw_lock_x_lock_low` after the decrement or in the relock. -/
def Pc.takes : Pc → Bool
  | .assertRecursive | .loadWriter | .casWriter | .setRecursive | .setWaitEx | .waitEx | .reserveEx
  | .testEx | .beginWaitEx | .sleepEx | .clearWaitEx | .relockTest | .relockLoad | .relockStore => true
  | _ => false

/-- The event that the thread has reset, keeping the count. -/
def Pc.registered (site : Site) (cell : Signal) : Pc → Option Signal
  | .testEx | .beginWaitEx | .sleepEx => some .waitEx
  | .announce | .beginWait | .sleep => some cell
  | pc => if pc.tries = true ∧ site = .last then some cell else none

/-- The event for which the thread will sleep, as it has found the lock taken after its announcement. -/
def Pc.awaits (site : Site) (cell : Signal) (xHeld : ℕ) : Pc → Option Signal
  | .beginWaitEx | .sleepEx => some .waitEx
  | .beginWait | .sleep => some cell
  | .testWriter => if site = .last ∧ xHeld = 0 then some cell else none
  | _ => none

/-- A thread of high priority is counted as a waiter. -/
def Pc.counted (site : Site) : Pc → Bool
  | .withdraw | .beginWait | .sleep | .woken => true
  | pc => (pc.tries || pc.takes) && site == .last

/-- A thread of high priority has set the flag of the next writer. -/
def Pc.flags : Pc → Bool
  | .waitEx | .reserveEx | .testEx | .beginWaitEx | .sleepEx | .clearWaitEx => true
  | _ => false

def Thread.registered (t : Thread n) : Option Signal := t.pc.registered t.site t.cell

def Thread.awaits (t : Thread n) : Option Signal := t.pc.awaits t.site t.cell t.xHeld

def Thread.countedS (t : Thread n) : Bool := t.high && t.pc.counted t.site && !t.exclusive

def Thread.countedX (t : Thread n) : Bool := t.high && t.pc.counted t.site && t.exclusive

def Thread.flags (t : Thread n) : Bool := t.high && t.pc.flags

/-- The thread is on its way to the signal, after it has released a lock. -/
def Pc.signals (w : Signal) (pc : Pc) : Bool :=
  match w with
  | .all => pc == .readHighX || pc == .readHighS || pc == .readWaiters || pc == .resetWaiters ||
      pc == .signal
  | .highS => pc == .readHighX || pc == .readHighS || pc == .signalHighS
  | .highX => pc == .readHighX || pc == .signalHighX
  | .waitEx => pc == .signalEx

/-- The thread holds a lock at whose release it will care for the event. -/
def Thread.holdsFor (prio : Bool) (t : Thread n) : Signal → Prop
  | .all => 0 < t.xHeld ∨ (prio = true ∧ t.sHeld = true)
  | .highS | .highX => 0 < t.xHeld
  | .waitEx => t.sHeld = true

/-- The request of the thread goes before those who wait for the event. -/
def Thread.goesBefore (t : Thread n) : Signal → Bool
  | .all => t.high
  | .highS => t.high && t.exclusive
  | .highX | .waitEx => false

/-- The thread is in charge of those who wait for an event. -/
def Thread.serves (prio : Bool) (t : Thread n) (w : Signal) : Prop :=
  t.holdsFor prio w ∨ t.pc.signals w = true ∨ (t.pc.requests = true ∧ t.goesBefore w = true)

/-- What the priority of a thread says about its place. -/
structure Ranks (prio : Bool) (t : Thread n) : Prop where
  prio : t.high = true → prio = true
  site : t.site.waits = false → t.high = false
  high : t.pc = .withdraw ∨ t.pc = .woken ∨ t.pc = .setWaitEx ∨ t.pc = .clearWaitEx → t.high = true
  low : t.pc = .askWaitEx ∨ t.pc = .askS ∨ t.pc = .askX → t.high = false

/-! ### Where the helpers lead -/

theorem attempt_cases (t : Thread n) (site : Site) :
    (site = .spin ∧ t.attempt site = (.spin, .spin)) ∨
      (site ≠ .spin ∧ (t.attempt site = (site, .loadRecursive) ∨ t.attempt site = (site, .load))) := by
  cases site <;> cases h : t.exclusive <;> simp [Thread.attempt, h]

theorem ask_cases (prio : Bool) (t : Thread n) (site : Site) :
    (t.ask prio site = (site, .askWaitEx) ∧ t.high = false) ∨ t.ask prio site = t.attempt site := by
  unfold Thread.ask
  split
  · exact .inl ⟨rfl, ‹_ ∧ _›.2⟩
  · exact .inr rfl

theorem refused_cases (prio : Bool) (rounds : ℕ) (t : Thread n) :
    (t.site.waits = true ∧ t.site ≠ .last ∧
        ((t.refused prio rounds = (t.site, .reserve)) ∨
          ∃ site, site.waits = true ∧ site ≠ .last ∧ t.refused prio rounds = t.ask prio site)) ∨
      (t.site = .last ∧ t.refused prio rounds = (.last, .beginWait)) ∨
      (t.site.waits = false ∧ t.refused prio rounds = (t.site, .idle)) := by
  unfold Thread.refused
  cases hsite : t.site <;> dsimp only
  case first => exact .inl ⟨rfl, by decide, .inr ⟨.spin, by decide, by decide, rfl⟩⟩
  case spin =>
    refine .inl ⟨rfl, by decide, ?_⟩
    split
    · exact .inl rfl
    · exact .inr ⟨.again, by decide, by decide, rfl⟩
  case again =>
    refine .inl ⟨rfl, by decide, ?_⟩
    split
    · exact .inr ⟨.spin, by decide, by decide, rfl⟩
    · exact .inl rfl
  case last => exact .inr (.inl ⟨rfl, rfl⟩)
  case nowait => exact .inr (.inr ⟨rfl, rfl⟩)
  case moveOwnership => exact .inr (.inr ⟨rfl, rfl⟩)

@[simp] theorem attempt_site {site : Site} : (t.attempt site).1 = site := by cases site <;> rfl

@[simp] theorem ask_site {site : Site} : (t.ask prio site).1 = site := by
  rcases ask_cases prio t site with h | h <;> simp [h]

/-- The place is in a request, and nothing has been found out there yet. -/
structure Begins (t : Thread n) (site : Site) (pc : Pc) : Prop where
  waits : site.waits = true
  requests : pc.requests = true
  registered : ∀ cell, pc.registered site cell = if site = .last then some cell else none
  awaits : ∀ cell x, pc.awaits site cell x = none
  counted : pc.counted site = (site == .last)
  high : ¬ (pc = .withdraw ∨ pc = .woken ∨ pc = .setWaitEx ∨ pc = .clearWaitEx)
  low : pc = .askWaitEx ∨ pc = .askS ∨ pc = .askX → t.high = false

section Begins

variable {site : Site} {pc : Pc} (hsite : site.waits = true)
include hsite

theorem begins_ask_pc (hlow : t.high = false) (hpc : pc = .askWaitEx ∨ pc = .askS ∨ pc = .askX) :
    Begins t site pc := by
  rcases hpc with rfl | rfl | rfl <;>
    exact ⟨hsite, rfl, fun _ => by simp [Pc.registered, Pc.tries], fun _ _ => rfl,
      by simp [Pc.counted, Pc.tries], by simp, fun _ => hlow⟩

theorem begins_low (hpc : pc = .loadRecursive ∨ pc = .load ∨ pc = .cas) : Begins t site pc := by
  rcases hpc with rfl | rfl | rfl <;>
    exact ⟨hsite, rfl, fun _ => by simp [Pc.registered, Pc.tries], fun _ _ => rfl,
      by simp [Pc.counted, Pc.tries], by simp, by simp⟩

theorem begins_wait (hne : site ≠ .last) (hpc : pc = .spin ∨ pc = .reserve) : Begins t site pc := by
  rcases hpc with rfl | rfl <;>
    exact ⟨hsite, rfl, fun _ => by simp [Pc.registered, Pc.tries, hne], fun _ _ => rfl,
      by simp [Pc.counted, Pc.tries, Pc.takes, hne], by simp, by simp⟩

theorem begins_attempt : Begins t site (t.attempt site).2 := by
  rcases attempt_cases t site with ⟨rfl, h⟩ | ⟨-, h | h⟩ <;> rw [h]
  · exact begins_wait hsite (by decide) (.inl rfl)
  · exact begins_low hsite (.inl rfl)
  · exact begins_low hsite (.inr (.inl rfl))

theorem begins_ask : Begins t site (t.ask prio site).2 := by
  rcases ask_cases prio t site with ⟨h, hlow⟩ | h <;> rw [h]
  · exact begins_ask_pc hsite hlow (.inl rfl)
  · exact begins_attempt hsite

end Begins

/-- A refused thread tries on, or it has lost its last try, or it does not wait. -/
theorem refused_begins (prio : Bool) (rounds : ℕ) (t : Thread n) :
    (t.site ≠ .last ∧ (t.refused prio rounds).1 ≠ .last ∧
        Begins t (t.refused prio rounds).1 (t.refused prio rounds).2) ∨
      (t.site = .last ∧ t.refused prio rounds = (.last, .beginWait)) ∨
      (t.site.waits = false ∧ t.refused prio rounds = (t.site, .idle)) := by
  rcases refused_cases prio rounds t with ⟨hsite, hne, h | ⟨site, hsite', hne', h⟩⟩ | h | h
  · rw [h]
    exact .inl ⟨hne, hne, begins_wait hsite hne (.inr rfl)⟩
  · rw [h, ask_site]
    exact .inl ⟨hne, hne', begins_ask hsite'⟩
  · exact .inr (.inl h)
  · exact .inr (.inr h)

/-! ### One step -/

/-- Why a thread goes to sleep after its announcement. -/
def Refusal (l : PrioRwLock n) (t : Thread n) : Signal → Prop
  | .waitEx => l.lockWord < 0 ∧ t.xHeld = 1
  | .all => (l.lockWord ≤ 0 ∧ t.xHeld = 0) ∨
      (t.high = false ∧ (l.highPriorityWaitExWaiter = true ∨ 0 < l.highPrioritySWaiters ∨
        0 < l.highPriorityXWaiters))
  | .highS | .highX => l.lockWord ≤ 0 ∧ t.xHeld = 0

/-- Why a thread stops being in charge of an event without having signalled it. -/
def Relief (prio : Bool) (l : PrioRwLock n) (t : Thread n) (l' : PrioRwLock n) : Signal → Prop
  | .all => (t.pc = .readHighX ∧ 0 < l.highPriorityXWaiters) ∨
      (t.pc = .readHighS ∧ 0 < l.highPrioritySWaiters) ∨ (t.pc = .readWaiters ∧ l.waiters = false) ∨
      (t.pc = .sUnlock ∧ prio = true ∧ l'.lockWord ≠ xLockDecr)
  | .highS => (t.pc = .readHighX ∧ 0 < l.highPriorityXWaiters) ∨
      (t.pc = .readHighS ∧ l.highPrioritySWaiters = 0) ∨ prio = false
  | .highX => (t.pc = .readHighX ∧ l.highPriorityXWaiters = 0) ∨ prio = false
  | .waitEx => t.pc = .sUnlock ∧ l'.lockWord ≠ 0

/-- What those who wait can rely on when a thread goes from `t` to `t'`. -/
structure Proceeds (prio : Bool) (l : PrioRwLock n) (t : Thread n) (l' : PrioRwLock n) (t' : Thread n) :
    Prop where
  events : ∀ w, (l.eventOf w).Follows (l'.eventOf w)
  ranks : Ranks prio t'
  recorded : ∀ w, t'.registered = some w → (l'.eventOf w).Recorded t'.signalCount
  countedS : l'.highPrioritySWaiters + t.countedS.toNat = l.highPrioritySWaiters + t'.countedS.toNat
  countedX : l'.highPriorityXWaiters + t.countedX.toNat = l.highPriorityXWaiters + t'.countedX.toNat
  flag : l'.highPriorityWaitExWaiter = true →
    (l.highPriorityWaitExWaiter = true ∧ (t.flags = true → t'.flags = true)) ∨ t'.flags = true
  waiters : l.waiters = true → l'.waiters = true ∨ t'.pc = .signal
  noticed : t'.registered = some .all → t'.pc ≠ .announce →
    (t.registered = some .all ∧ t.pc ≠ .announce ∧ t'.signalCount = t.signalCount) ∨ l'.waiters = true
  signal : t.pc = .signal → l'.eventOf .all = (l.eventOf .all).set
  awaits : ∀ w, t'.awaits = some w →
    (t.awaits = some w ∧ t'.signalCount = t.signalCount) ∨ Refusal l t w
  serves : ∀ w, t.serves prio w →
    t'.serves prio w ∨ l'.eventOf w = (l.eventOf w).set ∨ Relief prio l t l' w

/-- The thread keeps what it has asked for and the count of its cell. -/
structure SameCall (t t' : Thread n) : Prop where
  exclusive : t'.exclusive = t.exclusive
  high : t'.high = t.high
  signalCount : t'.signalCount = t.signalCount

theorem SameCall.cell (h : SameCall t t') : t'.cell = t.cell := by
  simp [Thread.cell, h.exclusive, h.high]

/-- Only a thread of high priority goes before others. -/
theorem Thread.high_of_goesBefore {w : Signal} (h : t.goesBefore w = true) : t.high = true := by
  cases w <;> simp_all [Thread.goesBefore]

theorem Pc.signals_of_requests {pc : Pc} (h : pc.requests = true) (w : Signal) : pc.signals w = false := by
  cases pc <;> simp_all [Pc.requests, Pc.tries] <;> cases w <;> rfl

theorem Pc.signals_of_takes {pc : Pc} (h : pc.takes = true) (w : Signal) : pc.signals w = false := by
  cases pc <;> simp_all [Pc.takes] <;> cases w <;> rfl

/-- Nothing changes that those who wait look at, but perhaps the flag of the next writer. -/
structure Calm (l l' : PrioRwLock n) : Prop where
  events : ∀ w, l'.eventOf w = l.eventOf w
  waiters : l'.waiters = l.waiters
  sWaiters : l'.highPrioritySWaiters = l.highPrioritySWaiters
  xWaiters : l'.highPriorityXWaiters = l.highPriorityXWaiters

theorem Calm.refl (l : PrioRwLock n) : Calm l l := ⟨fun _ => rfl, rfl, rfl, rfl⟩

/-- Who holds the same goes on serving. -/
theorem serves_of_same (hexclusive : t'.exclusive = t.exclusive) (hhigh : t'.high = t.high)
    (hs : t'.sHeld = t.sHeld) (hx : t'.xHeld = t.xHeld) (hsignals : ∀ w, t.pc.signals w = false)
    (hrequests : t.high = true → t.pc.requests = true → t'.pc.requests = true) (w : Signal)
    (h : t.serves prio w) : t'.serves prio w := by
  rcases h with hholds | hsignal | ⟨hpc, hbefore⟩
  · refine .inl ?_
    cases w <;> simpa [Thread.holdsFor, hs, hx] using hholds
  · simp [hsignals w] at hsignal
  · refine .inr (.inr ⟨hrequests (Thread.high_of_goesBefore hbefore) hpc, ?_⟩)
    rw [← hbefore]
    cases w <;> simp [Thread.goesBefore, hexclusive, hhigh]

/-- Who has an exclusive lock serves. -/
theorem serves_of_xHeld (hx : 0 < t'.xHeld) (hs : t'.sHeld = t.sHeld)
    (hsignals : t.pc.signals .waitEx = false) (w : Signal) (h : t.serves prio w) : t'.serves prio w := by
  cases w
  case waitEx =>
    rcases h with hholds | hsignal | ⟨-, hbefore⟩
    · exact .inl (hs.trans hholds)
    · simp [hsignals] at hsignal
    · simp [Thread.goesBefore] at hbefore
  case all => exact .inl (.inl hx)
  case highS => exact .inl hx
  case highX => exact .inl hx

theorem proceeds_of_same (hcalm : Calm l l')
    (hrecorded : ∀ w, t.registered = some w → (l.eventOf w).Recorded t.signalCount)
    (hsame : SameCall t t') (hranks : Ranks prio t')
    (hregistered : t'.registered = none ∨ (t'.registered = t.registered ∧ t.pc ≠ .announce))
    (hcounted : t.high = true → t'.pc.counted t'.site = t.pc.counted t.site)
    (hflag : l'.highPriorityWaitExWaiter = true →
      (l.highPriorityWaitExWaiter = true ∧ (t.flags = true → t'.flags = true)) ∨ t'.flags = true)
    (hawaits : ∀ w, t'.awaits = some w → t.awaits = some w ∨ Refusal l t w) (hsignal : t.pc ≠ .signal)
    (hserves : ∀ w, t.serves prio w → t'.serves prio w ∨ Relief prio l t l' w) :
    Proceeds prio l t l' t' := by
  have hcountedHigh : (t'.high && t'.pc.counted t'.site) = (t.high && t.pc.counted t.site) := by
    rw [hsame.high]
    cases hhigh : t.high
    · rfl
    · rw [hcounted hhigh]
  refine ⟨fun w => .inl (hcalm.events w), hranks, fun w hw => ?_, ?_, ?_, hflag,
    fun h => .inl (hcalm.waiters ▸ h), fun h _ => ?_, fun h => absurd h hsignal, fun w hw => ?_,
    fun w hw => (hserves w hw).imp_right .inr⟩
  · rcases hregistered with hnone | ⟨hold, -⟩
    · simp [hnone] at hw
    · rw [hsame.signalCount, hcalm.events]
      exact hrecorded w (hold ▸ hw)
  · simp only [Thread.countedS, hcountedHigh, hsame.exclusive, hcalm.sWaiters]
  · simp only [Thread.countedX, hcountedHigh, hsame.exclusive, hcalm.xWaiters]
  · rcases hregistered with hnone | ⟨hold, hpc⟩
    · simp [hnone] at h
    · exact .inl ⟨hold ▸ h, hpc, hsame.signalCount⟩
  · exact (hawaits w hw).imp_left fun h => ⟨h, hsame.signalCount⟩

theorem Pc.requests_of_tries {pc : Pc} (h : pc.tries = true) : pc.requests = true := by
  cases pc <;> simp_all [Pc.requests, Pc.tries]

theorem Pc.flags_of_requests {pc : Pc} (h : pc.requests = true) : pc.flags = false := by
  cases pc <;> simp_all [Pc.requests, Pc.tries, Pc.flags]

theorem Pc.counted_of_tries {pc : Pc} {site : Site} (h : pc.tries = true) :
    pc.counted site = (site == .last) := by
  cases pc <;> simp_all [Pc.tries, Pc.counted]

theorem Pc.registered_of_tries {pc : Pc} {site : Site} {cell : Signal} (h : pc.tries = true) :
    pc.registered site cell = if site = .last then some cell else none := by
  cases pc <;> simp_all [Pc.tries, Pc.registered]

/-- A step of a thread that has an exclusive lock then. -/
theorem proceeds_owner (hcalm : Calm l l')
    (hflag : l'.highPriorityWaitExWaiter = l.highPriorityWaitExWaiter)
    (hrecorded : ∀ w, t.registered = some w → (l.eventOf w).Recorded t.signalCount)
    (hsame : SameCall t t') (hranks : Ranks prio t')
    (hregistered : t'.registered = none ∨ (t'.registered = t.registered ∧ t.pc ≠ .announce))
    (hcounted : t.high = true → t'.pc.counted t'.site = t.pc.counted t.site)
    (hflags : t.flags = true → t'.flags = true)
    (hawaits : ∀ w, t'.awaits = some w → t.awaits = some w ∨ Refusal l t w)
    (hsignals : ∀ w, t.pc.signals w = false) (hx : 0 < t'.xHeld) (hs : t'.sHeld = t.sHeld) :
    Proceeds prio l t l' t' := by
  refine proceeds_of_same hcalm hrecorded hsame hranks hregistered hcounted
    (fun h => .inl ⟨hflag ▸ h, hflags⟩) hawaits (fun h => ?_) fun w h => .inl ?_
  · simpa [h, Pc.signals] using hsignals .all
  · exact serves_of_xHeld hx hs (hsignals _) w h

section Granted

variable (hpc : t'.pc = t.granted) (hsite : t'.site = t.site)
include hpc

theorem granted_registered : t'.registered = none := by
  rcases granted_cases t with h | h <;> simp [Thread.registered, hpc, h, Pc.registered, Pc.tries]

theorem granted_awaits : t'.awaits = none := by
  rcases granted_cases t with h | h <;> simp [Thread.awaits, hpc, h, Pc.awaits]

theorem granted_counted (hhigh : t.high = true) : t'.pc.counted t'.site = (t.site == .last) := by
  by_cases hlast : t.site = .last
  · simp [hpc, Thread.granted, hlast, hhigh, Pc.counted]
  · simp [hpc, Thread.granted, hlast, Pc.counted, Pc.tries, Pc.takes]

include hsite

theorem ranks_granted (hranks : Ranks prio t) (hhigh : t'.high = t.high) : Ranks prio t' := by
  refine ⟨hhigh ▸ hranks.prio, by rw [hsite, hhigh]; exact hranks.site, fun h => ?_, fun h => ?_⟩
  · rw [hpc, Thread.granted] at h
    split at h
    · exact hhigh.trans ‹_ ∧ _›.2
    · simp at h
  · rcases granted_cases t with h' | h' <;> simp [hpc, h'] at h

end Granted

theorem refusal_of_nonpos (hword : l.lockWord ≤ 0) (hx : t.xHeld = 0) : Refusal l t t.cell := by
  unfold Thread.cell
  repeat' split
  · exact ⟨hword, hx⟩
  · exact ⟨hword, hx⟩
  · exact .inl ⟨hword, hx⟩

theorem attempt_eq (t : Thread n) (site : Site) : t.attempt site = (site, (t.attempt site).2) :=
  Prod.ext attempt_site rfl

section Requests

variable (hrecorded : ∀ w, t.registered = some w → (l.eventOf w).Recorded t.signalCount)
  (hranks : Ranks prio t)
include hrecorded

/-- A step inside a request that only reads. -/
theorem proceeds_request (hrequests : t.pc.requests = true) (hsame : SameCall t t')
    (hs : t'.sHeld = t.sHeld) (hx : t'.xHeld = t.xHeld) (hranks : Ranks prio t')
    (hregistered : t'.registered = none ∨ (t'.registered = t.registered ∧ t.pc ≠ .announce))
    (hcounted : t.high = true → t'.pc.counted t'.site = t.pc.counted t.site)
    (hawaits : ∀ w, t'.awaits = some w → t.awaits = some w ∨ Refusal l t w)
    (hrequests' : t.high = true → t'.pc.requests = true) : Proceeds prio l t l t' := by
  refine proceeds_of_same (.refl l) hrecorded hsame hranks hregistered hcounted
    (fun h => .inl ⟨h, fun hflags => ?_⟩) hawaits (fun h => ?_) fun w h => .inl ?_
  · simp [Thread.flags, Pc.flags_of_requests hrequests] at hflags
  · simp [h, Pc.requests, Pc.tries] at hrequests
  · exact serves_of_same hsame.exclusive hsame.high hs hx (Pc.signals_of_requests hrequests) (fun hhigh _ => hrequests' hhigh) w h

include hranks

/-- A step from one place of a request to another where nothing has been found out. -/
theorem proceeds_begins {site : Site} {pc : Pc} (hbegins : Begins t site pc)
    (hrequests : t.pc.requests = true) (hsame : SameCall t t') (hs : t'.sHeld = t.sHeld)
    (hx : t'.xHeld = t.xHeld) (hsite : t'.site = site) (hpc : t'.pc = pc)
    (hlast : site = .last → t.site = .last ∧ t.pc.tries = true)
    (hfirst : site ≠ .last → t.high = true → t.pc.counted t.site = false) : Proceeds prio l t l t' := by
  refine proceeds_request hrecorded hrequests hsame hs hx
    ⟨hsame.high ▸ hranks.prio, fun h => ?_, fun h => ?_, fun h => ?_⟩ ?_ (fun hhigh => ?_)
    (fun w h => ?_) fun _ => hpc ▸ hbegins.requests
  · simp [hsite, hbegins.waits] at h
  · exact absurd h (hpc ▸ hbegins.high)
  · exact hsame.high.trans (hbegins.low (hpc ▸ h))
  · rw [Thread.registered, hsite, hpc, hbegins.registered, hsame.cell]
    split
    · obtain ⟨hold, htries⟩ := hlast ‹_›
      refine .inr ⟨?_, fun h => by simp [h, Pc.tries] at htries⟩
      rw [Thread.registered, Pc.registered_of_tries htries, if_pos hold]
    · exact .inl rfl
  · rw [hsite, hpc, hbegins.counted]
    by_cases h : site = .last
    · obtain ⟨hold, htries⟩ := hlast h
      rw [Pc.counted_of_tries htries, hold, h]
    · rw [hfirst h hhigh]
      simpa using h
  · simp [Thread.awaits, hsite, hpc, hbegins.awaits] at h

/-- A try that stays at its site. -/
theorem proceeds_tries {pc : Pc} (hbegins : Begins t t.site pc) (htries : t.pc.tries = true)
    (hsame : SameCall t t') (hs : t'.sHeld = t.sHeld) (hx : t'.xHeld = t.xHeld)
    (hsite : t'.site = t.site) (hpc : t'.pc = pc) : Proceeds prio l t l t' :=
  proceeds_begins hrecorded hranks hbegins (Pc.requests_of_tries htries) hsame hs hx hsite hpc
    (fun h => ⟨h, htries⟩) fun hne _ => by simpa [Pc.counted_of_tries htries] using hne

theorem proceeds_refused (htries : t.pc.tries = true)
    (hwhy : t.site = .last → t.awaits = some t.cell ∨ Refusal l t t.cell) :
    Proceeds prio l t l (t.goTo (t.refused prio rounds)) := by
  have hrequests := Pc.requests_of_tries htries
  have hsame : SameCall t (t.goTo (t.refused prio rounds)) := ⟨rfl, rfl, rfl⟩
  rcases refused_begins prio rounds t with ⟨hne, hne', hbegins⟩ | ⟨hsite, htarget⟩ | ⟨hsite, htarget⟩
  · refine proceeds_begins hrecorded hranks hbegins hrequests hsame rfl rfl rfl rfl
      (fun h => absurd h hne') fun _ _ => ?_
    rw [Pc.counted_of_tries htries]
    simpa using hne
  · rw [htarget] at hsame ⊢
    refine proceeds_request hrecorded hrequests hsame rfl rfl
      ⟨hranks.prio, fun h => ?_, fun h => ?_, fun h => ?_⟩
      (.inr ⟨?_, fun h => by simp [h, Pc.tries] at htries⟩) (fun _ => ?_) (fun w h => ?_) fun _ => rfl
    · simp [Thread.goTo, Site.waits] at h
    · simp [Thread.goTo] at h
    · simp [Thread.goTo] at h
    · rw [Thread.registered, Thread.registered, hsame.cell, Pc.registered_of_tries htries, if_pos hsite]
      rfl
    · rw [Pc.counted_of_tries htries, hsite]
      rfl
    · have hcell : w = t.cell := by
        rw [← hsame.cell]
        simpa [Thread.awaits, Thread.goTo, Pc.awaits] using h.symm
      exact hcell ▸ hwhy hsite
  · rw [htarget] at hsame ⊢
    have hlow := hranks.site hsite
    refine proceeds_request hrecorded hrequests hsame rfl rfl
      ⟨hranks.prio, fun _ => hlow, fun h => ?_, fun _ => hlow⟩ (.inl ?_) (fun h => ?_) (fun w h => ?_)
      fun h => ?_
    · simp [Thread.goTo] at h
    · simp [Thread.registered, Thread.goTo, Pc.registered, Pc.tries]
    · simp [hlow] at h
    · simp [Thread.awaits, Thread.goTo, Pc.awaits] at h
    · simp [hlow] at h

variable (hknows : Knows l i t)
include hknows

theorem proceeds_ask (hpc : t.pc = .askWaitEx ∨ t.pc = .askS ∨ t.pc = .askX) :
    Proceeds prio l t (next prio rounds l i t).1 (next prio rounds l i t).2 := by
  have hlow := hranks.low hpc
  have htries : t.pc.tries = true := by rcases hpc with h | h | h <;> simp [h, Pc.tries]
  have hwaits : t.site.waits = true := by
    rcases hpc with h | h | h <;> simp only [Knows, h] at hknows <;> exact hknows.1.site
  have hcell : t.cell = .all := by simp [Thread.cell, hlow]
  -- The thread goes on with the next question, or is refused by what it has read.
  have hgoes : ∀ pc, Begins t t.site pc → Proceeds prio l t l (t.goTo (t.site, pc)) := fun pc hbegins =>
    proceeds_tries hrecorded hranks hbegins htries ⟨rfl, rfl, rfl⟩ rfl rfl rfl rfl
  have hrefused : l.highPriorityWaitExWaiter = true ∨ 0 < l.highPrioritySWaiters ∨
      0 < l.highPriorityXWaiters → Proceeds prio l t l (t.goTo (t.refused prio rounds)) := fun h =>
    proceeds_refused hrecorded hranks htries fun _ => .inr (hcell ▸ .inr ⟨hlow, h⟩)
  rcases hpc with h | h | h <;> simp only [next, h]
  · split
    · exact hrefused (.inl ‹_›)
    · exact hgoes _ (begins_ask_pc hwaits hlow (by simp))
  · split
    · exact hrefused (.inr (.inl ‹_›))
    · exact hgoes _ (begins_ask_pc hwaits hlow (by simp))
  · split
    · exact hrefused (.inr (.inr ‹_›))
    · rw [attempt_eq]
      exact hgoes _ (begins_attempt hwaits)

omit hknows in
theorem proceeds_spin (hpc : t.pc = .spin) :
    Proceeds prio l t (next prio rounds l i t).1 (next prio rounds l i t).2 := by
  have hrequests : t.pc.requests = true := by simp [hpc, Pc.requests]
  have hcounted : t.pc.counted t.site = false := by simp [hpc, Pc.counted, Pc.tries, Pc.takes]
  have hask : ∀ site, site.waits = true → site ≠ .last →
      Proceeds prio l t l (t.goTo (t.ask prio site)) := fun site hsite hne =>
    proceeds_begins hrecorded hranks (begins_ask hsite) hrequests ⟨rfl, rfl, rfl⟩ rfl rfl ask_site rfl
      (fun h => absurd h hne) fun _ _ => hcounted
  -- Neither the loop nor its end is a place where the thread is registered.
  have hstays : ∀ t' : Thread n, SameCall t t' → t'.sHeld = t.sHeld → t'.xHeld = t.xHeld →
      t'.site = t.site → t'.pc = .spin ∨ t'.pc = .reserve → Proceeds prio l t l t' := by
    intro t' hsame hs hx hsite hpc'
    refine proceeds_request hrecorded hrequests hsame hs hx
      ⟨hsame.high ▸ hranks.prio, by rw [hsite, hsame.high]; exact hranks.site, fun h => ?_, fun h => ?_⟩
      (.inl ?_) (fun _ => ?_) (fun w h => ?_) fun _ => ?_
    all_goals rcases hpc' with hpc' | hpc' <;> simp_all [Thread.registered, Pc.registered, Pc.tries,
      Pc.takes, Pc.counted, Thread.awaits, Pc.awaits, Pc.requests]
  simp only [next, hpc]
  split
  · exact hstays _ ⟨rfl, rfl, rfl⟩ rfl rfl rfl (.inl rfl)
  · split
    · split
      · exact hstays _ ⟨rfl, rfl, rfl⟩ rfl rfl rfl (.inr rfl)
      · exact hask .first rfl (by decide)
    · exact hask .again rfl (by decide)

theorem proceeds_loadRecursive (hpc : t.pc = .loadRecursive) :
    Proceeds prio l t (next prio rounds l i t).1 (next prio rounds l i t).2 := by
  simp only [Knows, hpc] at hknows
  have htries : t.pc.tries = true := by simp [hpc, Pc.tries]
  simp only [next, hpc]
  split
  · have hlow := hranks.site (by simp [‹t.site = _›, Site.waits])
    refine proceeds_request hrecorded (Pc.requests_of_tries htries) ⟨rfl, rfl, rfl⟩ rfl rfl
      ⟨hranks.prio, hranks.site, by simp, fun _ => hlow⟩ (.inl ?_) (fun h => ?_) (fun w h => ?_) fun h => ?_
    · simp [Thread.registered, Pc.registered, Pc.tries]
    · simp [hlow] at h
    · simp [Thread.awaits, Pc.awaits] at h
    · simp [hlow] at h
  · have hasks := hknows.resolve_left fun h => ‹¬ _› h.1
    exact proceeds_tries hrecorded hranks (begins_low hasks.site (.inr (.inl rfl))) htries ⟨rfl, rfl, rfl⟩ rfl rfl
      rfl rfl

theorem proceeds_load (hpc : t.pc = .load) :
    Proceeds prio l t (next prio rounds l i t).1 (next prio rounds l i t).2 := by
  have hx := hknows.xHeld_of_refused hpc
  simp only [Knows, hpc] at hknows
  have htries : t.pc.tries = true := by simp [hpc, Pc.tries]
  have hwaits := hknows.1.site
  simp only [next, hpc]
  split
  · exact proceeds_tries hrecorded hranks (begins_low hwaits (.inr (.inr rfl))) htries ⟨rfl, rfl, rfl⟩
      rfl rfl rfl rfl
  · have hword : l.lockWord ≤ 0 := by omega
    split
    · refine proceeds_request hrecorded (Pc.requests_of_tries htries) ⟨rfl, rfl, rfl⟩ rfl rfl
        ⟨hranks.prio, hranks.site, by simp, by simp⟩ (.inr ⟨?_, by simp [hpc]⟩) (fun _ => ?_)
        (fun w h => .inr ?_) fun _ => rfl
      · simp [Thread.registered, hpc, Pc.registered, Pc.tries, Thread.cell]
      · simp [hpc, Pc.counted, Pc.tries]
      · simp only [Thread.awaits, Pc.awaits] at h
        split at h
        · rw [← Option.some.inj h]
          exact refusal_of_nonpos hword ‹_ ∧ _›.2
        · simp at h
    · exact proceeds_refused hrecorded hranks htries fun _ =>
        .inr (refusal_of_nonpos hword (hx ‹_›))

theorem proceeds_testWriter (hpc : t.pc = .testWriter) (hview : View l i t) :
    Proceeds prio l t (next prio rounds l i t).1 (next prio rounds l i t).2 := by
  have htries : t.pc.tries = true := by simp [hpc, Pc.tries]
  have howner := hknows.xHeld_of_testWriter hview hpc
  simp only [next, hpc]
  split
  · -- The relock is the writer's.
    refine proceeds_owner ⟨fun _ => rfl, rfl, rfl, rfl⟩ rfl hrecorded ⟨rfl, rfl, rfl⟩
      ⟨hranks.prio, hranks.site, by simp, by simp⟩ (.inl rfl) (fun _ => ?_) (fun h => ?_) (fun w h => ?_)
      (Pc.signals_of_requests (Pc.requests_of_tries htries)) (howner.1 ‹_›) rfl
    · simp [hpc, Pc.counted, Pc.tries, Pc.takes]
    · simp [Thread.flags, hpc, Pc.flags] at h
    · simp [Thread.awaits, Pc.awaits] at h
  · refine proceeds_refused hrecorded hranks htries fun hsite => .inl ?_
    have hx := howner.2 (by simp [hsite]) ‹_›
    simp [Thread.awaits, hpc, Pc.awaits, hsite, hx]

theorem proceeds_cas (hpc : t.pc = .cas) :
    Proceeds prio l t (next prio rounds l i t).1 (next prio rounds l i t).2 := by
  simp only [Knows, hpc] at hknows
  have htries : t.pc.tries = true := by simp [hpc, Pc.tries]
  simp only [next, hpc]
  split
  · split
    · refine proceeds_owner ⟨fun _ => rfl, rfl, rfl, rfl⟩ rfl hrecorded ⟨rfl, rfl, rfl⟩
        ⟨hranks.prio, hranks.site, by simp, by simp⟩ (.inl rfl) (fun _ => ?_) (fun h => ?_) (fun w h => ?_)
        (Pc.signals_of_requests (Pc.requests_of_tries htries)) (Nat.succ_pos _) rfl
      · simp [hpc, Pc.counted, Pc.tries, Pc.takes]
      · simp [Thread.flags, hpc, Pc.flags] at h
      · simp [Thread.awaits, Pc.awaits] at h
    · refine proceeds_of_same ⟨fun _ => rfl, rfl, rfl, rfl⟩ hrecorded ⟨rfl, rfl, rfl⟩
        (ranks_granted rfl rfl hranks rfl) (.inl (granted_registered rfl)) (fun hhigh => ?_)
        (fun h => .inl ⟨h, by simp [Thread.flags, hpc, Pc.flags]⟩) (fun w h => ?_) (by simp [hpc])
        fun w h => .inl ?_
      · rw [granted_counted rfl hhigh, Pc.counted_of_tries htries]
      · rw [granted_awaits rfl] at h
        simp at h
      · -- The new reader of high priority cares for those of low priority.
        have hshared : t.exclusive = false := by simpa using ‹¬ t.exclusive = true›
        rcases h with hholds | hsignal | ⟨-, hbefore⟩
        · cases w
          case all => exact .inl (hholds.imp_right fun h => ⟨h.1, rfl⟩)
          case waitEx => exact .inl rfl
          case highS | highX => exact .inl hholds
        · simp [Pc.signals_of_requests (Pc.requests_of_tries htries)] at hsignal
        · cases w <;> simp only [Thread.goesBefore, hshared, Bool.and_false, Bool.false_eq_true] at hbefore
          exact .inl (.inr ⟨hranks.prio hbefore, rfl⟩)
  · exact proceeds_tries hrecorded hranks (begins_low hknows.1.site (.inr (.inl rfl))) htries
      ⟨rfl, rfl, rfl⟩ rfl rfl rfl rfl

theorem proceeds_casFree (hpc : t.pc = .casFree) :
    Proceeds prio l t (next prio rounds l i t).1 (next prio rounds l i t).2 := by
  simp only [Knows, hpc] at hknows
  have hsite := hknows.1
  have hlow := hranks.site (by simp [hsite, Site.waits])
  have hflags : t.flags = false := by simp [Thread.flags, hlow]
  -- A thread that does not wait is no waiter at any of the places it comes to.
  have hstep : ∀ (l' : PrioRwLock n) (t' : Thread n), Calm l l' →
      l'.highPriorityWaitExWaiter = l.highPriorityWaitExWaiter → SameCall t t' → t'.site = .nowait →
      t'.pc = .loadWriter ∨ t'.pc = .testWriter ∨ t'.pc = .idle →
      (∀ w, t.serves prio w → t'.serves prio w) → Proceeds prio l t l' t' := by
    intro l' t' hcalm hflag hsame hsite' hpc' hserves
    refine proceeds_of_same hcalm hrecorded hsame
      ⟨hsame.high ▸ hranks.prio, fun _ => hsame.high.trans hlow, fun h => ?_,
        fun _ => hsame.high.trans hlow⟩
      (.inl ?_) (fun h => by simp [hlow] at h) (fun h => .inl ⟨hflag ▸ h, fun h => by simp [hflags] at h⟩)
      (fun w h => ?_) (by simp [hpc]) fun w h => .inl (hserves w h)
    · rcases hpc' with hpc' | hpc' | hpc' <;> simp [hpc'] at h
    · rcases hpc' with hpc' | hpc' | hpc' <;>
        simp [Thread.registered, hpc', hsite', Pc.registered, Pc.tries]
    · rcases hpc' with hpc' | hpc' | hpc' <;> simp [Thread.awaits, hpc', hsite', Pc.awaits] at h
  have hsignals : ∀ w, t.pc.signals w = false := fun w => by cases w <;> simp [hpc, Pc.signals]
  have hreads : ∀ t' : Thread n, SameCall t t' → t'.sHeld = t.sHeld → t'.xHeld = t.xHeld →
      t'.site = .nowait → t'.pc = .testWriter ∨ t'.pc = .idle → Proceeds prio l t l t' :=
    fun t' hsame hs hx hsite' hpc' =>
      hstep l t' (.refl l) rfl hsame hsite' (.inr hpc') fun w h =>
        serves_of_same hsame.exclusive hsame.high hs hx hsignals (fun hhigh => by simp [hlow] at hhigh) w h
  simp only [next, hpc]
  split
  · refine hstep _ _ ⟨fun _ => rfl, rfl, rfl, rfl⟩ rfl ⟨rfl, rfl, rfl⟩ hsite (.inl rfl) fun w h => ?_
    refine serves_of_xHeld ?_ ?_ (hsignals _) w h
    · exact Nat.succ_pos _
    · rfl
  · split
    · exact hreads _ ⟨rfl, rfl, rfl⟩ rfl rfl hsite (.inl rfl)
    · refine hreads _ ⟨rfl, rfl, rfl⟩ rfl rfl ?_ (.inr ?_) <;> simp [Thread.refused, hsite, Thread.goTo]

end Requests

theorem Pc.counted_of_takes {pc : Pc} {site : Site} (h : pc.takes = true) :
    pc.counted site = (site == .last) := by
  cases pc <;> simp_all [Pc.takes, Pc.counted]

section Takes

variable (hrecorded : ∀ w, t.registered = some w → (l.eventOf w).Recorded t.signalCount)
  (hranks : Ranks prio t) (hknows : Knows l i t)
include hrecorded hranks hknows

theorem proceeds_claim (hpc : t.pc = .assertRecursive ∨ t.pc = .loadWriter ∨ t.pc = .casWriter ∨
      t.pc = .relockTest ∨ t.pc = .relockLoad) :
    Proceeds prio l t (next prio rounds l i t).1 (next prio rounds l i t).2 := by
  have hx : 0 < t.xHeld := by
    rcases hpc with h | h | h | h | h <;> simp only [Knows, h] at hknows
    · omega
    · exact hknows.pos
    · exact hknows.1.pos
    · exact hknows.1
    · exact hknows.1.1
  have htakes : t.pc.takes = true := by rcases hpc with h | h | h | h | h <;> simp [h, Pc.takes]
  have hflags : t.flags = false := by
    rcases hpc with h | h | h | h | h <;> simp [Thread.flags, h, Pc.flags]
  have hstep : ∀ (l' : PrioRwLock n) (t' : Thread n), Calm l l' →
      l'.highPriorityWaitExWaiter = l.highPriorityWaitExWaiter → SameCall t t' →
      t'.sHeld = t.sHeld → t'.xHeld = t.xHeld → t'.site = t.site →
      t'.pc = .loadWriter ∨ t'.pc = .casWriter ∨ t'.pc = .setRecursive ∨ t'.pc = .relockLoad ∨
        t'.pc = .relockStore → Proceeds prio l t l' t' := by
    intro l' t' hcalm hflag hsame hs hx' hsite hpc'
    have htakes' : t'.pc.takes = true := by rcases hpc' with h | h | h | h | h <;> simp [h, Pc.takes]
    refine proceeds_owner hcalm hflag hrecorded hsame
      ⟨hsame.high ▸ hranks.prio, by rw [hsite, hsame.high]; exact hranks.site, fun h => ?_, fun h => ?_⟩
      (.inl ?_) (fun _ => ?_) (fun h => by simp [hflags] at h) (fun w h => ?_)
      (Pc.signals_of_takes htakes) (hx' ▸ hx) hs
    · rcases hpc' with hpc' | hpc' | hpc' | hpc' | hpc' <;> simp [hpc'] at h
    · rcases hpc' with hpc' | hpc' | hpc' | hpc' | hpc' <;> simp [hpc'] at h
    · rcases hpc' with hpc' | hpc' | hpc' | hpc' | hpc' <;>
        simp [Thread.registered, hpc', Pc.registered, Pc.tries]
    · rw [Pc.counted_of_takes htakes, Pc.counted_of_takes htakes', hsite]
    · rcases hpc' with hpc' | hpc' | hpc' | hpc' | hpc' <;> simp [Thread.awaits, hpc', Pc.awaits] at h
  rcases hpc with h | h | h | h | h <;> simp only [Knows, h] at hknows <;> simp only [next, h]
  · simp only [hknows.2.2, Bool.false_eq_true, if_false]
    exact hstep _ _ (.refl l) rfl ⟨rfl, rfl, rfl⟩ rfl rfl rfl (by simp)
  · exact hstep _ _ (.refl l) rfl ⟨rfl, rfl, rfl⟩ rfl rfl rfl (by simp)
  · rw [if_pos hknows.2.symm]
    exact hstep _ _ ⟨fun w => by cases w <;> rfl, rfl, rfl, rfl⟩ rfl ⟨rfl, rfl, rfl⟩ rfl rfl rfl (by simp)
  · split
    · split <;> exact hstep _ _ (.refl l) rfl ⟨rfl, rfl, rfl⟩ rfl rfl rfl (by simp)
    · exact hstep _ _ (.refl l) rfl ⟨rfl, rfl, rfl⟩ rfl rfl rfl (by simp)
  · exact hstep _ _ (.refl l) rfl ⟨rfl, rfl, rfl⟩ rfl rfl rfl (by simp)

theorem proceeds_setRecursive (hpc : t.pc = .setRecursive) :
    Proceeds prio l t (next prio rounds l i t).1 (next prio rounds l i t).2 := by
  simp only [Knows, hpc] at hknows
  have hstep : ∀ t' : Thread n, SameCall t t' → t'.sHeld = t.sHeld → t'.xHeld = t.xHeld →
      t'.site = t.site →
      (t'.pc = .idle ∧ t.site.waits = false) ∨ (t'.pc = .setWaitEx ∧ t.high = true) ∨
        t'.pc = .waitEx →
      Proceeds prio l t { l with recursive := t.recursionFlag } t' := by
    intro t' hsame hs hx' hsite hpc'
    refine proceeds_owner ⟨fun w => by cases w <;> rfl, rfl, rfl, rfl⟩ rfl hrecorded hsame
      ⟨hsame.high ▸ hranks.prio, by rw [hsite, hsame.high]; exact hranks.site, fun h => ?_, fun h => ?_⟩
      (.inl ?_) (fun hhigh => ?_) (fun h => by simp [Thread.flags, hpc, Pc.flags] at h) (fun w h => ?_)
      (Pc.signals_of_takes (by simp [hpc, Pc.takes])) (hx' ▸ hknows.2.1) hs
    · rcases hpc' with ⟨hpc', -⟩ | ⟨hpc', hhigh⟩ | hpc'
      · simp [hpc'] at h
      · exact hsame.high.trans hhigh
      · simp [hpc'] at h
    · rcases hpc' with ⟨hpc', -⟩ | ⟨hpc', -⟩ | hpc' <;> simp [hpc'] at h
    · rcases hpc' with ⟨hpc', -⟩ | ⟨hpc', -⟩ | hpc' <;>
        simp [Thread.registered, hpc', Pc.registered, Pc.tries]
    · rcases hpc' with ⟨-, hwaits⟩ | ⟨hpc', -⟩ | hpc'
      · simp [hranks.site hwaits] at hhigh
      · simp [hpc, hpc', hsite, Pc.counted, Pc.tries, Pc.takes]
      · simp [hpc, hpc', hsite, Pc.counted, Pc.tries, Pc.takes]
    · rcases hpc' with ⟨hpc', -⟩ | ⟨hpc', -⟩ | hpc' <;> simp [Thread.awaits, hpc', Pc.awaits] at h
  simp only [next, hpc]
  cases hsite : t.site <;> dsimp only
  case nowait | moveOwnership =>
    exact hstep _ ⟨rfl, rfl, rfl⟩ rfl rfl hsite.symm (.inl ⟨rfl, by simp [hsite, Site.waits]⟩)
  all_goals
    refine hstep _ ⟨rfl, rfl, rfl⟩ rfl rfl hsite.symm ?_
    cases hhigh : t.high <;> simp

theorem proceeds_waitEx (hpc : t.pc = .setWaitEx ∨ t.pc = .waitEx ∨ t.pc = .testEx ∨
      t.pc = .beginWaitEx ∨ t.pc = .sleepEx ∨ t.pc = .clearWaitEx) :
    Proceeds prio l t (next prio rounds l i t).1 (next prio rounds l i t).2 := by
  have hx : t.xHeld = 1 := by
    rcases hpc with h | h | h | h | h | h <;> simpa only [Knows, h] using hknows
  have htakes : t.pc.takes = true := by rcases hpc with h | h | h | h | h | h <;> simp [h, Pc.takes]
  have hsignal : t.pc ≠ .signal := fun h => by simp [h, Pc.takes] at htakes
  have hannounce : t.pc ≠ .announce := fun h => by simp [h, Pc.takes] at htakes
  have hserves : ∀ (l' : PrioRwLock n) (t' : Thread n), t'.sHeld = t.sHeld → t'.xHeld = t.xHeld → ∀ w,
      t.serves prio w → t'.serves prio w ∨ Relief prio l t l' w := fun _ t' hs hx' w h =>
    .inl (serves_of_xHeld (by omega) hs (Pc.signals_of_takes htakes _) w h)
  -- From place to place inside `rw_lock_x_lock_wait`.
  have hstep : ∀ (l' : PrioRwLock n) (t' : Thread n), Calm l l' → SameCall t t' →
      t'.sHeld = t.sHeld → t'.xHeld = t.xHeld → t'.site = t.site → t'.pc.takes = true →
      (t'.pc = .setWaitEx ∨ t'.pc = .clearWaitEx → t.high = true) →
      t'.registered = none ∨ t'.registered = t.registered → t'.pc.flags = true →
      (l'.highPriorityWaitExWaiter = true → l.highPriorityWaitExWaiter = true ∨ t.high = true) →
      (∀ w, t'.awaits = some w → t.awaits = some w ∨ Refusal l t w) → Proceeds prio l t l' t' := by
    intro l' t' hcalm hsame hs hx' hsite htakes' hhigh hregistered hflags hflag hawaits
    refine proceeds_of_same hcalm hrecorded hsame
      ⟨hsame.high ▸ hranks.prio, by rw [hsite, hsame.high]; exact hranks.site, fun h => ?_, fun h => ?_⟩
      (hregistered.imp_right fun h => ⟨h, hannounce⟩) (fun _ => ?_) (fun h => ?_) hawaits hsignal
      (hserves l' t' hs hx')
    · rw [hsame.high]
      rcases h with h | h | h | h
      · simp [h, Pc.takes] at htakes'
      · simp [h, Pc.takes] at htakes'
      · exact hhigh (.inl h)
      · exact hhigh (.inr h)
    · rcases h with h | h | h <;> simp [h, Pc.takes] at htakes'
    · rw [Pc.counted_of_takes htakes, Pc.counted_of_takes htakes', hsite]
    · rcases hflag h with hold | hhigh'
      · exact .inl ⟨hold, fun h => by simp_all [Thread.flags, hsame.high]⟩
      · exact .inr (by simp [Thread.flags, hsame.high, hhigh', hflags])
  have hgranted : ∀ l' : PrioRwLock n, Calm l l' →
      (l'.highPriorityWaitExWaiter = true → l.highPriorityWaitExWaiter = true ∧ t.high = false) →
      Proceeds prio l t l' { t with pc := t.granted } := by
    intro l' hcalm hflag
    refine proceeds_of_same hcalm hrecorded ⟨rfl, rfl, rfl⟩ (ranks_granted rfl rfl hranks rfl)
      (.inl (granted_registered rfl)) (fun hhigh => ?_) (fun h => .inl ⟨(hflag h).1, fun hflags => ?_⟩)
      (fun w h => ?_) hsignal (hserves _ _ rfl rfl)
    · rw [granted_counted rfl hhigh, Pc.counted_of_takes htakes]
    · simp [Thread.flags, (hflag h).2] at hflags
    · rw [granted_awaits rfl] at h
      simp at h
  rcases hpc with h | h | h | h | h | h <;> simp only [next, h]
  · exact hstep _ _ ⟨fun w => by cases w <;> rfl, rfl, rfl, rfl⟩ ⟨rfl, rfl, rfl⟩ rfl rfl rfl rfl (by simp)
      (.inl rfl) rfl (fun _ => .inr (hranks.high (by simp [h]))) (by simp [Thread.awaits, Pc.awaits])
  · split
    · split <;> exact hstep _ _ (.refl l) ⟨rfl, rfl, rfl⟩ rfl rfl rfl rfl (by simp) (.inl rfl) rfl .inl
        (by simp [Thread.awaits, Pc.awaits])
    · split
      · exact hstep _ _ (.refl l) ⟨rfl, rfl, rfl⟩ rfl rfl rfl rfl (fun _ => ‹_›) (.inl rfl) rfl .inl
          (by simp [Thread.awaits, Pc.awaits])
      · exact hgranted l (.refl l) fun hflag => ⟨hflag, by simpa using ‹¬ t.high = true›⟩
  · split
    · refine hstep _ _ (.refl l) ⟨rfl, rfl, rfl⟩ rfl rfl rfl rfl (by simp) (.inr ?_) rfl .inl fun w hw => .inr ?_
      · simp [Thread.registered, h, Pc.registered]
      · obtain rfl : Signal.waitEx = w := by simpa [Thread.awaits, Pc.awaits] using hw
        exact ⟨‹_›, hx⟩
    · exact hstep _ _ (.refl l) ⟨rfl, rfl, rfl⟩ rfl rfl rfl rfl (by simp) (.inl rfl) rfl .inl
        (by simp [Thread.awaits, Pc.awaits])
  · have hcount := (hrecorded .waitEx (by simp [Thread.registered, h, Pc.registered])).waitCount
    refine hstep _ _ (.refl l) ⟨rfl, rfl, hcount⟩ rfl rfl rfl rfl (by simp) (.inr ?_) rfl .inl fun w hw => .inl ?_
    · simp [Thread.registered, h, Pc.registered]
    · simpa [Thread.awaits, h, Pc.awaits] using hw
  · exact hstep _ _ (.refl l) ⟨rfl, rfl, rfl⟩ rfl rfl rfl rfl (by simp) (.inl rfl) rfl .inl
      (by simp [Thread.awaits, Pc.awaits])
  · exact hgranted _ ⟨fun w => by cases w <;> rfl, rfl, rfl, rfl⟩ fun hflag => absurd hflag Bool.false_ne_true

omit hknows in
theorem proceeds_relockStore (hpc : t.pc = .relockStore) :
    Proceeds prio l t (next prio rounds l i t).1 (next prio rounds l i t).2 := by
  have htakes : t.pc.takes = true := by simp [hpc, Pc.takes]
  simp only [next, hpc]
  refine proceeds_owner ⟨fun w => by cases w <;> rfl, rfl, rfl, rfl⟩ rfl hrecorded ⟨rfl, rfl, rfl⟩
    (ranks_granted rfl rfl hranks rfl) (.inl (granted_registered rfl)) (fun hhigh => ?_) (fun h => ?_)
    (fun w h => ?_) (Pc.signals_of_takes htakes) (Nat.succ_pos _) rfl
  · rw [granted_counted rfl hhigh, Pc.counted_of_takes htakes]
  · simp [Thread.flags, hpc, Pc.flags] at h
  · rw [granted_awaits rfl] at h
    simp at h

end Takes

/-! ### The wait -/

section Events

variable {which w : Signal} {f : OsEvent → OsEvent}

theorem eventOf_onEvent :
    (l.onEvent which f).eventOf w = if w = which then f (l.eventOf which) else l.eventOf w := by
  cases which <;> cases w <;> rfl

@[simp] theorem onEvent_waiters : (l.onEvent which f).waiters = l.waiters := by cases which <;> rfl

@[simp] theorem onEvent_sWaiters :
    (l.onEvent which f).highPrioritySWaiters = l.highPrioritySWaiters := by cases which <;> rfl

@[simp] theorem onEvent_xWaiters :
    (l.onEvent which f).highPriorityXWaiters = l.highPriorityXWaiters := by cases which <;> rfl

@[simp] theorem onEvent_flag :
    (l.onEvent which f).highPriorityWaitExWaiter = l.highPriorityWaitExWaiter := by cases which <;> rfl

@[simp] theorem announceWaiter_eventOf : (l.announceWaiter t).eventOf w = l.eventOf w := by
  unfold PrioRwLock.announceWaiter; repeat' split
  all_goals cases w <;> rfl

@[simp] theorem announceWaiter_flag :
    (l.announceWaiter t).highPriorityWaitExWaiter = l.highPriorityWaitExWaiter := by
  unfold PrioRwLock.announceWaiter; repeat' split
  all_goals rfl

@[simp] theorem withdrawWaiter_eventOf : (l.withdrawWaiter t).eventOf w = l.eventOf w := by
  unfold PrioRwLock.withdrawWaiter; split <;> cases w <;> rfl

@[simp] theorem withdrawWaiter_waiters : (l.withdrawWaiter t).waiters = l.waiters := by
  unfold PrioRwLock.withdrawWaiter; split <;> rfl

@[simp] theorem withdrawWaiter_flag :
    (l.withdrawWaiter t).highPriorityWaitExWaiter = l.highPriorityWaitExWaiter := by
  unfold PrioRwLock.withdrawWaiter; split <;> rfl

end Events

/-- The thread resets an event and takes its count. -/
theorem proceeds_reserves {which : Signal} (hpos : 0 < (l.eventOf which).signalCount)
    (hexclusive : t'.exclusive = t.exclusive) (hhigh : t'.high = t.high)
    (hcount : t'.signalCount = (l.eventOf which).signalCount) (hregistered : t'.registered = some which)
    (hnew : t'.pc = .announce ∨ which ≠ .all) (hranks : Ranks prio t')
    (hcounted : t'.pc.counted t'.site = t.pc.counted t.site) (hflags : t.flags = true → t'.flags = true)
    (hawaits : t'.awaits = none) (hsignal : t.pc ≠ .signal)
    (hserves : ∀ w, t.serves prio w → t'.serves prio w) :
    Proceeds prio l t (l.onEvent which OsEvent.reset) t' := by
  refine ⟨fun w => ?_, hranks, fun w hw => ?_, ?_, ?_, fun h => .inl ⟨by simpa using h, hflags⟩,
    fun h => .inl (by simpa using h), fun h hne => ?_, fun h => absurd h hsignal, fun w hw => ?_,
    fun w hw => .inl (hserves w hw)⟩
  · rw [eventOf_onEvent]
    split
    · exact .inr (.inl (by rw [‹w = which›]))
    · exact .inl rfl
  · obtain rfl : which = w := by simpa [hregistered] using hw
    rw [eventOf_onEvent, if_pos rfl, hcount]
    exact OsEvent.recorded_reset hpos
  · simp [Thread.countedS, hcounted, hexclusive, hhigh]
  · simp [Thread.countedX, hcounted, hexclusive, hhigh]
  · obtain rfl : which = .all := by simpa [hregistered] using h
    exact absurd rfl (hnew.resolve_left hne)
  · simp [hawaits] at hw

section Wait

variable (hpos : ∀ w, 0 < (l.eventOf w).signalCount)
  (hrecorded : ∀ w, t.registered = some w → (l.eventOf w).Recorded t.signalCount)
  (hranks : Ranks prio t) (hknows : Knows l i t)
  (hS : t.countedS = true → 0 < l.highPrioritySWaiters)
  (hX : t.countedX = true → 0 < l.highPriorityXWaiters)

include hpos hranks hknows in
theorem proceeds_reserveEx (hpc : t.pc = .reserveEx) :
    Proceeds prio l t (next prio rounds l i t).1 (next prio rounds l i t).2 := by
  have hx : t.xHeld = 1 := by simpa only [Knows, hpc] using hknows
  simp only [next, hpc]
  refine proceeds_reserves (hpos _) rfl rfl rfl rfl (.inr (by decide))
    ⟨hranks.prio, hranks.site, by simp, by simp⟩ ?_ (fun h => ?_) rfl (by simp [hpc]) fun w h => ?_
  · simp [hpc, Pc.counted, Pc.takes, Pc.tries]
  · simpa [Thread.flags, hpc, Pc.flags] using h
  · refine serves_of_xHeld ?_ ?_ (by simp [hpc, Pc.signals]) w h
    · simp [hx]
    · rfl

include hpos hranks in
theorem proceeds_reserve (hpc : t.pc = .reserve) :
    Proceeds prio l t (next prio rounds l i t).1 (next prio rounds l i t).2 := by
  have hrequests : t.pc.requests = true := by simp [hpc, Pc.requests]
  simp only [next, hpc]
  refine proceeds_reserves (hpos _) rfl rfl rfl rfl (.inl rfl)
    ⟨hranks.prio, hranks.site, by simp, by simp⟩ ?_ (fun h => ?_) rfl (by simp [hpc]) fun w h => ?_
  · simp [hpc, Pc.counted, Pc.takes, Pc.tries]
  · simp [Thread.flags, hpc, Pc.flags] at h
  · refine serves_of_same ?_ ?_ ?_ ?_ (Pc.signals_of_requests hrequests) (fun _ _ => rfl) w h
    all_goals rfl

include hrecorded hranks in
theorem proceeds_announce (hpc : t.pc = .announce) :
    Proceeds prio l t (next prio rounds l i t).1 (next prio rounds l i t).2 := by
  simp only [next, hpc]
  generalize htarget : (if t.exclusive then t.attempt .last else t.ask prio .last) = target
  obtain ⟨hsite, hbegins⟩ : target.1 = .last ∧ Begins t .last target.2 := by
    rw [← htarget]
    split
    · exact ⟨attempt_site, begins_attempt rfl⟩
    · exact ⟨ask_site, begins_ask rfl⟩
  have hcell : (t.goTo target).cell = t.cell := rfl
  have hregistered : (t.goTo target).registered = some t.cell := by
    have h := hbegins.registered t.cell
    simpa [Thread.registered, Thread.goTo, hsite, Thread.cell] using h
  have hcounted : (t.goTo target).pc.counted (t.goTo target).site = true := by
    simp [Thread.goTo, hsite, hbegins.counted]
  have hrequests : t.pc.requests = true := by simp [hpc, Pc.requests]
  refine ⟨fun w => .inl (by simp), ⟨hranks.prio, fun h => ?_, fun h => absurd h hbegins.high, hbegins.low⟩,
    fun w hw => ?_, ?_, ?_, fun h => .inl ⟨by simpa using h, fun h => ?_⟩, fun h => .inl ?_,
    fun h hne => .inr ?_, fun h => ?_, fun w h => ?_, fun w h => .inl ?_⟩
  · simp [Thread.goTo, hsite, Site.waits] at h
  · obtain rfl : t.cell = w := by simpa [hregistered] using hw
    rw [announceWaiter_eventOf]
    exact hrecorded t.cell (by simp [Thread.registered, hpc, Pc.registered])
  · have hself : t.countedS = false := by simp [Thread.countedS, hpc, Pc.counted, Pc.tries, Pc.takes]
    rw [hself, Thread.countedS, hcounted]
    cases hhigh : t.high <;> cases hexclusive : t.exclusive <;>
      simp [PrioRwLock.announceWaiter, Thread.goTo, hhigh, hexclusive]
  · have hself : t.countedX = false := by simp [Thread.countedX, hpc, Pc.counted, Pc.tries, Pc.takes]
    rw [hself, Thread.countedX, hcounted]
    cases hhigh : t.high <;> cases hexclusive : t.exclusive <;>
      simp [PrioRwLock.announceWaiter, Thread.goTo, hhigh, hexclusive]
  · simp [Thread.flags, hpc, Pc.flags] at h
  · unfold PrioRwLock.announceWaiter
    repeat' split
    all_goals first | rfl | exact h
  · have hlow : t.high = false := by
      have hall : t.cell = .all := by simpa [hregistered] using h
      by_contra hhigh
      cases hexclusive : t.exclusive <;> simp_all [Thread.cell]
    simp [PrioRwLock.announceWaiter, hlow]
  · simp [hpc] at h
  · simp [Thread.awaits, Thread.goTo, hsite, hbegins.awaits] at h
  · refine serves_of_same ?_ ?_ ?_ ?_ (Pc.signals_of_requests hrequests) (fun _ _ => hbegins.requests) w h
    all_goals rfl

/-- A counted thread takes itself off the count. -/
theorem proceeds_withdraws (hhigh : t.high = true) (hpc : t.pc.counted t.site = true)
    (hS : t.countedS = true → 0 < l.highPrioritySWaiters)
    (hX : t.countedX = true → 0 < l.highPriorityXWaiters)
    (hexclusive : t'.exclusive = t.exclusive) (hhigh' : t'.high = t.high)
    (hcounted : t'.pc.counted t'.site = false) (hranks : Ranks prio t') (hregistered : t'.registered = none)
    (hflags : t.flags = false) (hsignal : t.pc ≠ .signal) (hawaits : t'.awaits = none)
    (hserves : ∀ w, t.serves prio w → t'.serves prio w) :
    Proceeds prio l t (l.withdrawWaiter t) t' := by
  refine ⟨fun w => .inl (by simp), hranks, fun w hw => by simp [hregistered] at hw, ?_, ?_,
    fun h => .inl ⟨by simpa using h, fun h => by simp [hflags] at h⟩, fun h => .inl (by simpa using h),
    fun h _ => by simp [hregistered] at h, fun h => absurd h hsignal, fun w h => by simp [hawaits] at h,
    fun w h => .inl (hserves w h)⟩
  · have hself : t.countedS = !t.exclusive := by simp [Thread.countedS, hhigh, hpc]
    rw [hself] at hS ⊢
    cases he : t.exclusive <;> simp_all [Thread.countedS, PrioRwLock.withdrawWaiter]
    omega
  · have hself : t.countedX = t.exclusive := by simp [Thread.countedX, hhigh, hpc]
    rw [hself] at hX ⊢
    cases he : t.exclusive <;> simp_all [Thread.countedX, PrioRwLock.withdrawWaiter]
    omega

theorem lockLoop_site (prio : Bool) (t : Thread n) :
    (t.lockLoop prio).1.waits = true ∧ (t.lockLoop prio).1 ≠ .last := by
  rw [Thread.lockLoop, ask_site]
  split <;> decide

theorem begins_lockLoop (prio : Bool) (t : Thread n) :
    Begins t (t.lockLoop prio).1 (t.lockLoop prio).2 := by
  have h := (lockLoop_site prio t).1
  rw [Thread.lockLoop, ask_site] at h ⊢
  exact begins_ask h

include hS hX hranks in
theorem proceeds_withdraw (hpc : t.pc = .withdraw) :
    Proceeds prio l t (next prio rounds l i t).1 (next prio rounds l i t).2 := by
  simp only [next, hpc]
  refine proceeds_withdraws (hranks.high (.inl hpc)) (by simp [hpc, Pc.counted]) hS hX rfl rfl
    (by simp [Pc.counted, Pc.tries, Pc.takes]) ⟨hranks.prio, hranks.site, by simp, by simp⟩ rfl
    (by simp [Thread.flags, hpc, Pc.flags]) (by simp [hpc]) rfl fun w h => ?_
  refine serves_of_same ?_ ?_ ?_ ?_ (fun w => ?_) (fun _ h => ?_) w h
  · rfl
  · rfl
  · rfl
  · rfl
  · cases w <;> simp [hpc, Pc.signals]
  · simp [hpc, Pc.requests, Pc.tries] at h

include hS hX hranks in
theorem proceeds_woken (hpc : t.pc = .woken) :
    Proceeds prio l t (next prio rounds l i t).1 (next prio rounds l i t).2 := by
  have hrequests : t.pc.requests = true := by simp [hpc, Pc.requests]
  have hsite := lockLoop_site prio t
  have hbegins := begins_lockLoop prio t
  simp only [next, hpc]
  refine proceeds_withdraws (hranks.high (.inr (.inl hpc))) (by simp [hpc, Pc.counted]) hS hX rfl rfl ?_
    ⟨hranks.prio, fun h => ?_, fun h => absurd h hbegins.high, hbegins.low⟩ ?_
    (by simp [Thread.flags, hpc, Pc.flags]) (by simp [hpc]) (hbegins.awaits _ _) fun w h => ?_
  · exact hbegins.counted.trans (by simpa using hsite.2)
  · exact absurd hsite.1 (by simpa [Thread.goTo] using h)
  · exact (hbegins.registered _).trans (if_neg hsite.2)
  · refine serves_of_same ?_ ?_ ?_ ?_ (Pc.signals_of_requests hrequests) (fun _ _ => hbegins.requests) w h
    all_goals rfl

include hrecorded hranks in
theorem proceeds_beginWait (hpc : t.pc = .beginWait ∨ t.pc = .sleep) :
    Proceeds prio l t (next prio rounds l i t).1 (next prio rounds l i t).2 := by
  have hrequests : t.pc.requests = true := by rcases hpc with h | h <;> simp [h, Pc.requests]
  have hregistered : t.registered = some t.cell := by
    rcases hpc with h | h <;> simp [Thread.registered, h, Pc.registered]
  rcases hpc with hpc | hpc <;> simp only [next, hpc]
  · refine proceeds_request hrecorded hrequests ⟨rfl, rfl, (hrecorded _ hregistered).waitCount⟩ rfl rfl
      ⟨hranks.prio, hranks.site, by simp, by simp⟩ (.inr ⟨hregistered.symm, by simp [hpc]⟩) (fun _ => ?_)
      (fun w h => .inl ?_) fun _ => rfl
    · simp [hpc, Pc.counted]
    · simpa [Thread.awaits, hpc, Pc.awaits, Thread.cell] using h
  · split
    · refine proceeds_request hrecorded hrequests ⟨rfl, rfl, rfl⟩ rfl rfl
        ⟨hranks.prio, hranks.site, fun _ => ‹_›, by simp⟩ (.inl rfl) (fun _ => ?_) (fun w h => ?_) fun _ => rfl
      · simp [hpc, Pc.counted]
      · simp [Thread.awaits, Pc.awaits] at h
    · refine proceeds_begins hrecorded hranks (begins_lockLoop prio t) hrequests ⟨rfl, rfl, rfl⟩ rfl rfl rfl rfl
        (fun h => absurd h (lockLoop_site prio t).2) fun _ hhigh => ?_
      exact absurd hhigh ‹_›

end Wait

/-! ### The release -/

/-- The thread is not in a request: it is outside of all functions, or it releases a lock. -/
def Pc.outside (pc : Pc) : Bool := !pc.requests && !pc.takes && pc != .withdraw

section Outside

variable (hpc : t.pc.outside = true)
include hpc

theorem requests_of_outside : t.pc.requests = false := by
  cases h : t.pc.requests
  · rfl
  · simp [Pc.outside, h] at hpc

theorem takes_of_outside : t.pc.takes = false := by
  cases h : t.pc.takes
  · rfl
  · simp [Pc.outside, h] at hpc

theorem ne_withdraw_of_outside : t.pc ≠ .withdraw := fun h => by
  simp [Pc.outside, h] at hpc

theorem registered_of_outside : t.registered = none := by
  have hrequests := requests_of_outside hpc
  have htakes := takes_of_outside hpc
  cases h : t.pc <;>
    simp_all [Thread.registered, Pc.registered, Pc.requests, Pc.tries, Pc.takes]

theorem awaits_of_outside : t.awaits = none := by
  have hrequests := requests_of_outside hpc
  have htakes := takes_of_outside hpc
  cases h : t.pc <;> simp_all [Thread.awaits, Pc.awaits, Pc.requests, Pc.tries, Pc.takes]

theorem counted_of_outside (site : Site) : t.pc.counted site = false := by
  have hrequests := requests_of_outside hpc
  have htakes := takes_of_outside hpc
  have hwithdraw := ne_withdraw_of_outside hpc
  cases h : t.pc <;> simp_all [Pc.counted, Pc.requests, Pc.tries, Pc.takes]

theorem flags_of_outside : t.flags = false := by
  have htakes := takes_of_outside hpc
  cases h : t.pc <;> simp_all [Thread.flags, Pc.flags, Pc.takes]

theorem ranks_of_outside (hprio : t.high = true → prio = true)
    (hsite : t.site.waits = false → t.high = false) : Ranks prio t := by
  refine ⟨hprio, hsite, fun h => ?_, fun h => ?_⟩
  · rcases h with h | h | h | h <;> simp [h, Pc.outside, Pc.requests, Pc.tries, Pc.takes] at hpc
  · rcases h with h | h | h <;> simp [h, Pc.outside, Pc.requests, Pc.tries, Pc.takes] at hpc

end Outside

/-- A step outside of the requests. -/
theorem proceeds_outside (hevents : ∀ w, (l.eventOf w).Follows (l'.eventOf w))
    (hS : l'.highPrioritySWaiters = l.highPrioritySWaiters)
    (hX : l'.highPriorityXWaiters = l.highPriorityXWaiters)
    (hflag : l'.highPriorityWaitExWaiter = l.highPriorityWaitExWaiter)
    (hwaiters : l.waiters = true → l'.waiters = true ∨ t'.pc = .signal)
    (hsignal : t.pc = .signal → l'.eventOf .all = (l.eventOf .all).set) (hranks : Ranks prio t)
    (hhigh : t'.high = t.high) (hsite : t'.site = t.site) (hpc : t.pc.outside = true)
    (hpc' : t'.pc.outside = true)
    (hserves : ∀ w, t.serves prio w →
      t'.serves prio w ∨ l'.eventOf w = (l.eventOf w).set ∨ Relief prio l t l' w) :
    Proceeds prio l t l' t' := by
  refine ⟨hevents,
    ranks_of_outside hpc' (hhigh ▸ hranks.prio) (by rw [hsite, hhigh]; exact hranks.site),
    fun w h => ?_, ?_, ?_, fun h => .inl ⟨hflag ▸ h, fun h => ?_⟩, hwaiters, fun h => ?_, hsignal,
    fun w h => ?_, hserves⟩
  · simp [registered_of_outside hpc'] at h
  · simp [Thread.countedS, counted_of_outside hpc, counted_of_outside hpc', hS]
  · simp [Thread.countedX, counted_of_outside hpc, counted_of_outside hpc', hX]
  · simp [flags_of_outside hpc] at h
  · simp [registered_of_outside hpc'] at h
  · simp [awaits_of_outside hpc'] at h

theorem proceeds_calm (hcalm : Calm l l')
    (hflag : l'.highPriorityWaitExWaiter = l.highPriorityWaitExWaiter) (hranks : Ranks prio t)
    (hhigh : t'.high = t.high) (hsite : t'.site = t.site) (hpc : t.pc.outside = true)
    (hpc' : t'.pc.outside = true) (hsignal : t.pc ≠ .signal)
    (hserves : ∀ w, t.serves prio w → t'.serves prio w ∨ Relief prio l t l' w) :
    Proceeds prio l t l' t' :=
  proceeds_outside (fun w => .inl (hcalm.events w)) hcalm.sWaiters hcalm.xWaiters hflag
    (fun h => .inl (hcalm.waiters ▸ h)) (fun h => absurd h hsignal) hranks hhigh hsite hpc hpc'
    fun w h => (hserves w h).imp_right .inr

section Release

variable (hranks : Ranks prio t) (hview : View l i t) (hknows : Knows l i t)

include hranks hknows in
theorem proceeds_xPrepare (hpc : t.pc = .xPrepare ∨ t.pc = .xClear ∨ t.pc = .xTestZero ∨
      t.pc = .xTestMinus) :
    Proceeds prio l t (next prio rounds l i t).1 (next prio rounds l i t).2 := by
  have hx : 0 < t.xHeld := by
    rcases hpc with h | h | h | h <;> simp only [Knows, h] at hknows <;> omega
  have hstep : ∀ (l' : PrioRwLock n) (t' : Thread n), Calm l l' →
      l'.highPriorityWaitExWaiter = l.highPriorityWaitExWaiter → t'.high = t.high →
      t'.sHeld = t.sHeld → t'.xHeld = t.xHeld → t'.site = t.site → t'.pc.outside = true →
      Proceeds prio l t l' t' := by
    intro l' t' hcalm hflag hhigh hs hx' hsite hpc'
    refine proceeds_calm hcalm hflag hranks hhigh hsite ?_ hpc' ?_
      fun w h => .inl (serves_of_xHeld (hx' ▸ hx) hs ?_ w h)
    all_goals rcases hpc with h | h | h | h <;> simp [h, Pc.outside, Pc.requests, Pc.tries, Pc.takes, Pc.signals]
  rcases hpc with h | h | h | h <;> simp only [next, h]
  · split <;> exact hstep _ _ (.refl l) rfl rfl rfl rfl rfl rfl
  · exact hstep _ _ ⟨fun w => by cases w <;> rfl, rfl, rfl, rfl⟩ rfl rfl rfl rfl rfl rfl
  · split <;> exact hstep _ _ (.refl l) rfl rfl rfl rfl rfl rfl
  · exact hstep _ _ (.refl l) rfl rfl rfl rfl rfl rfl

include hranks in
theorem proceeds_sUnlock (hpc : t.pc = .sUnlock) :
    Proceeds prio l t (next prio rounds l i t).1 (next prio rounds l i t).2 := by
  simp only [next, hpc]
  refine proceeds_calm ⟨fun w => by cases w <;> rfl, rfl, rfl, rfl⟩ rfl hranks rfl rfl
    (by simp [hpc, Pc.outside, Pc.requests, Pc.tries, Pc.takes]) ?_ (by simp [hpc]) fun w h => ?_
  · dsimp only
    repeat' split
    all_goals rfl
  · have hholds : t.holdsFor prio w := by
      rcases h with h | h | ⟨h, -⟩
      · exact h
      · cases w <;> simp [hpc, Pc.signals] at h
      · simp [hpc, Pc.requests, Pc.tries] at h
    -- The last reader finds out by the lock word whom it has to wake.
    cases w
    case all =>
      rcases hholds with hx | ⟨hprio, -⟩
      · exact .inl (.inl (.inl hx))
      · by_cases hword : l.lockWord + 1 = xLockDecr
        · refine .inl (.inr (.inl ?_))
          have hne : ¬ xLockDecr = 0 := by decide
          simp [hword, hprio, hne, Pc.signals]
        · exact .inr (.inr (.inr (.inr ⟨hpc, hprio, hword⟩)))
    case waitEx =>
      by_cases hword : l.lockWord + 1 = 0
      · exact .inl (.inr (.inl (by simp [hword, Pc.signals])))
      · exact .inr ⟨hpc, hword⟩
    case highS | highX => exact .inl (.inl hholds)

include hranks hview hknows in
theorem proceeds_xUnlock (hpc : t.pc = .xUnlock) :
    Proceeds prio l t (next prio rounds l i t).1 (next prio rounds l i t).2 := by
  have hword := hview.whole (t := t)
  simp only [Knows, hpc] at hknows
  obtain ⟨⟨hx, -⟩, hamount⟩ := hknows
  replace hword := hword hx (by simp [Thread.draining, hpc])
  simp only [next, hpc]
  refine proceeds_calm ⟨fun w => by cases w <;> rfl, rfl, rfl, rfl⟩ rfl hranks rfl rfl
    (by simp [hpc, Pc.outside, Pc.requests, Pc.tries, Pc.takes]) ?_ (by simp [hpc]) fun w h => ?_
  · dsimp only
    repeat' split
    all_goals rfl
  · have hs : t.serves prio w → w = .waitEx → t.sHeld = true := fun h hw => by
      subst hw
      rcases h with h | h | ⟨h, -⟩
      · exact h
      · simp [hpc, Pc.signals] at h
      · simp [hpc, Pc.requests, Pc.tries] at h
    by_cases hone : t.xHeld = 1
    · -- The lock is free, and the thread looks for somebody to wake.
      have hfree : l.lockWord + t.amount = xLockDecr := by
        rw [hone] at hword hamount
        simp only [Nat.sub_self, weight] at hword hamount
        omega
      cases w
      case all => exact .inl (.inr (.inl (by cases prio <;> simp [hfree, Pc.signals])))
      case highS | highX =>
        cases prio
        · exact .inr (by simp [Relief])
        · exact .inl (.inr (.inl (by simp [hfree, Pc.signals])))
      case waitEx => exact .inl (.inl (hs h rfl))
    · refine .inl (serves_of_xHeld ?_ ?_ (by simp [hpc, Pc.signals]) w h)
      · dsimp only
        omega
      · rfl

include hranks in
theorem proceeds_reads (hpc : t.pc = .readHighX ∨ t.pc = .readHighS ∨ t.pc = .readWaiters) :
    Proceeds prio l t (next prio rounds l i t).1 (next prio rounds l i t).2 := by
  have houtside : t.pc.outside = true := by rcases hpc with h | h | h <;> simp [h, Pc.outside, Pc.requests, Pc.tries, Pc.takes]
  have hsignal : t.pc ≠ .signal := by rcases hpc with h | h | h <;> simp [h]
  have hstep : ∀ pc : Pc, pc.outside = true →
      (∀ w, t.pc.signals w = true → pc.signals w = true ∨ Relief prio l t l w) →
      Proceeds prio l t l { t with pc := pc } := by
    intro pc hpc' hsignals
    refine proceeds_calm (.refl l) rfl hranks rfl rfl houtside hpc' hsignal fun w h => ?_
    rcases h with h | h | ⟨h, -⟩
    · exact .inl (.inl (by cases w <;> exact h))
    · exact (hsignals w h).imp_left fun h => .inr (.inl h)
    · simp [requests_of_outside houtside] at h
  rcases hpc with h | h | h <;> simp only [next, h]
  · by_cases hX : l.highPriorityXWaiters = 0
    · rw [if_neg (not_not.mpr hX)]
      refine hstep _ rfl fun w hw => ?_
      cases w
      case all | highS => exact .inl rfl
      case highX => exact .inr (.inl ⟨h, hX⟩)
      case waitEx => simp [h, Pc.signals] at hw
    · rw [if_pos hX]
      refine hstep _ rfl fun w hw => ?_
      cases w
      case all | highS => exact .inr (.inl ⟨h, Nat.pos_of_ne_zero hX⟩)
      case highX => exact .inl rfl
      case waitEx => simp [h, Pc.signals] at hw
  · by_cases hS : l.highPrioritySWaiters = 0
    · rw [if_neg (not_not.mpr hS)]
      refine hstep _ rfl fun w hw => ?_
      cases w
      case all => exact .inl rfl
      case highS => exact .inr (.inr (.inl ⟨h, hS⟩))
      case highX | waitEx => simp [h, Pc.signals] at hw
    · rw [if_pos hS]
      refine hstep _ rfl fun w hw => ?_
      cases w
      case all => exact .inr (.inr (.inl ⟨h, Nat.pos_of_ne_zero hS⟩))
      case highS => exact .inl rfl
      case highX | waitEx => simp [h, Pc.signals] at hw
  · cases hwaiters : l.waiters
    · refine hstep _ rfl fun w hw => ?_
      cases w
      case all => exact .inr (.inr (.inr (.inl ⟨h, hwaiters⟩)))
      case highS | highX | waitEx => simp [h, Pc.signals] at hw
    · refine hstep _ rfl fun w hw => ?_
      cases w
      case all => exact .inl rfl
      case highS | highX | waitEx => simp [h, Pc.signals] at hw

include hranks in
theorem proceeds_resetWaiters (hpc : t.pc = .resetWaiters) :
    Proceeds prio l t (next prio rounds l i t).1 (next prio rounds l i t).2 := by
  have houtside : t.pc.outside = true := by simp [hpc, Pc.outside, Pc.requests, Pc.tries, Pc.takes]
  simp only [next, hpc]
  refine proceeds_outside (fun w => .inl (by cases w <;> rfl)) rfl rfl rfl (fun _ => .inr rfl)
    (by simp [hpc]) hranks rfl rfl houtside rfl fun w h => .inl ?_
  rcases h with h | h | ⟨h, -⟩
  · exact .inl (by cases w <;> exact h)
  · exact .inr (.inl (by cases w <;> simp_all [Pc.signals]))
  · simp [requests_of_outside houtside] at h

/-- The thread sets an event and leaves. -/
theorem proceeds_signals {which : Signal} (hranks : Ranks prio t) (houtside : t.pc.outside = true)
    (hsignal : t.pc = .signal → which = .all) (hsignals : ∀ w, t.pc.signals w = true → w = which) :
    Proceeds prio l t (l.onEvent which OsEvent.set) { t with pc := .idle } := by
  have hset : ∀ w, w = which →
      (l.onEvent which OsEvent.set).eventOf w = (l.eventOf w).set := fun w hw => by
    rw [eventOf_onEvent, if_pos hw, hw]
  refine proceeds_outside (fun w => ?_) (by simp) (by simp) (by simp) (fun h => .inl (by simpa using h))
    (fun h => hset _ (hsignal h).symm) hranks rfl rfl houtside rfl fun w h => ?_
  · by_cases hw : w = which
    · exact .inr (.inr (hset w hw))
    · exact .inl (by rw [eventOf_onEvent, if_neg hw])
  · rcases h with h | h | ⟨h, -⟩
    · exact .inl (.inl (by cases w <;> exact h))
    · exact .inr (.inl (hset w (hsignals w h)))
    · simp [requests_of_outside houtside] at h

include hranks in
theorem proceeds_signal (hpc : t.pc = .signalEx ∨ t.pc = .signalHighX ∨ t.pc = .signalHighS ∨
      t.pc = .signal) :
    Proceeds prio l t (next prio rounds l i t).1 (next prio rounds l i t).2 := by
  rcases hpc with h | h | h | h <;> simp only [next, h] <;>
    refine proceeds_signals hranks (by simp [h, Pc.outside, Pc.requests, Pc.tries, Pc.takes]) (by simp [h]) fun w hw => ?_
  all_goals cases w <;> simp_all [Pc.signals]

end Release

section Next

variable (hview : View l i t) (hknows : Knows l i t) (hranks : Ranks prio t)
  (hpos : ∀ w, 0 < (l.eventOf w).signalCount)
  (hrecorded : ∀ w, t.registered = some w → (l.eventOf w).Recorded t.signalCount)
  (hS : t.countedS = true → 0 < l.highPrioritySWaiters)
  (hX : t.countedX = true → 0 < l.highPriorityXWaiters)
include hview hknows hranks hpos hrecorded hS hX

theorem proceeds_next : Proceeds prio l t (next prio rounds l i t).1 (next prio rounds l i t).2 := by
  cases hpc : t.pc
  case idle =>
    simp only [next, hpc]
    refine proceeds_calm (.refl l) rfl hranks rfl rfl ?_ ?_ (by simp [hpc]) fun w h => .inl h
    all_goals simp [hpc, Pc.outside, Pc.requests, Pc.tries, Pc.takes]
  case failed => simp only [Knows, hpc] at hknows
  case askWaitEx | askS | askX => exact proceeds_ask hrecorded hranks hknows (by simp [hpc])
  case spin => exact proceeds_spin hrecorded hranks hpc
  case loadRecursive => exact proceeds_loadRecursive hrecorded hranks hknows hpc
  case load => exact proceeds_load hrecorded hranks hknows hpc
  case cas => exact proceeds_cas hrecorded hranks hknows hpc
  case casFree => exact proceeds_casFree hrecorded hranks hknows hpc
  case testWriter => exact proceeds_testWriter hrecorded hranks hknows hpc hview
  case assertRecursive | loadWriter | casWriter | relockTest | relockLoad =>
    exact proceeds_claim hrecorded hranks hknows (by simp [hpc])
  case setRecursive => exact proceeds_setRecursive hrecorded hranks hknows hpc
  case setWaitEx | waitEx | testEx | beginWaitEx | sleepEx | clearWaitEx =>
    exact proceeds_waitEx hrecorded hranks hknows (by simp [hpc])
  case reserveEx => exact proceeds_reserveEx hpos hranks hknows hpc
  case relockStore => exact proceeds_relockStore hrecorded hranks hpc
  case reserve => exact proceeds_reserve hpos hranks hpc
  case announce => exact proceeds_announce hrecorded hranks hpc
  case withdraw => exact proceeds_withdraw hranks hS hX hpc
  case beginWait | sleep => exact proceeds_beginWait hrecorded hranks (by simp [hpc])
  case woken => exact proceeds_woken hranks hS hX hpc
  case sUnlock => exact proceeds_sUnlock hranks hpc
  case xPrepare | xClear | xTestZero | xTestMinus => exact proceeds_xPrepare hranks hknows (by simp [hpc])
  case xUnlock => exact proceeds_xUnlock hranks hview hknows hpc
  case readHighX | readHighS | readWaiters => exact proceeds_reads hranks (by simp [hpc])
  case resetWaiters => exact proceeds_resetWaiters hranks hpc
  case signalEx | signalHighX | signalHighS | signal => exact proceeds_signal hranks (by simp [hpc])

end Next

/-- A call begins. -/
theorem proceeds_enters (hidle : t.pc = .idle) (hranks : Ranks prio t') (hs : t'.sHeld = t.sHeld)
    (hx : t'.xHeld = t.xHeld) (hregistered : t'.registered = none) (hawaits : t'.awaits = none)
    (hcounted : t'.high = true → t'.pc.counted t'.site = false) : Proceeds prio l t l t' := by
  have houtside : t.pc.outside = true := by simp [hidle, Pc.outside, Pc.requests, Pc.tries, Pc.takes]
  have hcounted' : (t'.high && t'.pc.counted t'.site) = false := by
    cases hhigh : t'.high
    · rfl
    · simp [hcounted hhigh]
  refine ⟨fun _ => .inl rfl, hranks, fun w h => by simp [hregistered] at h, ?_, ?_,
    fun h => .inl ⟨h, fun h => by simp [flags_of_outside houtside] at h⟩, .inl,
    fun h => by simp [hregistered] at h, fun h => by simp [hidle] at h,
    fun w h => by simp [hawaits] at h, fun w h => .inl ?_⟩
  · simp [Thread.countedS, counted_of_outside houtside, hcounted']
  · simp [Thread.countedX, counted_of_outside houtside, hcounted']
  · rcases h with h | h | ⟨h, -⟩
    · exact .inl (by cases w <;> simpa [Thread.holdsFor, hs, hx] using h)
    · cases w <;> simp [hidle, Pc.signals] at h
    · simp [requests_of_outside houtside] at h

theorem proceeds_call {c : Call} (hidle : t.pc = .idle) (hmay : t.MayCall prio l c)
    (hranks : Ranks prio t) : Proceeds prio l t l (t.call prio c) := by
  have hfirst : ∀ t' : Thread n, t'.sHeld = t.sHeld → t'.xHeld = t.xHeld →
      (t'.high = true → prio = true) → Proceeds prio l t l (t'.goTo (t'.ask prio .first)) := by
    intro t' hs hx hprio
    have hbegins : Begins t' .first (t'.ask prio .first).2 := begins_ask rfl
    have hsite : (t'.goTo (t'.ask prio .first)).site = .first := ask_site
    refine proceeds_enters hidle ⟨hprio, fun h => ?_, fun h => absurd h hbegins.high, hbegins.low⟩
      hs hx ?_ ?_ fun _ => ?_
    · simp [hsite, Site.waits] at h
    · rw [Thread.registered, hsite]
      exact hbegins.registered _
    · rw [Thread.awaits, hsite]
      exact hbegins.awaits _ _
    · rw [hsite]
      exact hbegins.counted
  cases c with
  | sLock high => exact hfirst _ rfl rfl hmay.2
  | xLock high pass => exact hfirst _ rfl rfl hmay.1.2
  | xLockNowait =>
    refine proceeds_enters hidle ⟨fun h => ?_, fun _ => rfl, fun h => ?_, fun _ => rfl⟩ rfl rfl ?_ rfl
      fun h => ?_
    · simp [Thread.call] at h
    · simp [Thread.call] at h
    · simp [Thread.call, Thread.registered, Pc.registered]
    · simp [Thread.call] at h
  | sUnlock =>
    exact proceeds_enters hidle (ranks_of_outside rfl hranks.prio hranks.site) rfl rfl rfl rfl
      fun _ => counted_of_outside (t := t.call prio .sUnlock) rfl _
  | xUnlock =>
    exact proceeds_enters hidle (ranks_of_outside rfl hranks.prio hranks.site) rfl rfl rfl rfl
      fun _ => counted_of_outside (t := t.call prio .xUnlock) rfl _
  | moveOwnership =>
    refine proceeds_enters hidle ⟨fun h => ?_, fun _ => rfl, fun h => ?_, fun _ => rfl⟩ rfl rfl ?_ rfl
      fun h => ?_
    · simp [Thread.call] at h
    · simp [Thread.call] at h
    · simp [Thread.call, Thread.registered, Pc.registered, Pc.tries]
    · simp [Thread.call] at h

/-! ### Who serves -/

theorem Knows.xHeld_of_takes (h : Knows l i t) (htakes : t.pc.takes = true) : 0 < t.xHeld := by
  cases hpc : t.pc <;> simp only [Pc.takes, hpc, Bool.false_eq_true] at htakes <;>
    simp only [Knows, hpc] at h
  case loadWriter => exact h.pos
  case casWriter => exact h.1.pos
  all_goals omega

/-- A counted thread is going to have the lock, or has it. -/
theorem serves_of_counted (hknows : Knows l i t) (hranks : Ranks prio t)
    (hcounted : (t.high && t.pc.counted t.site) = true) :
    t.serves prio .all ∧ (t.exclusive = true → t.serves prio .highS) := by
  obtain ⟨hhigh, hpc⟩ : t.high = true ∧ t.pc.counted t.site = true := by simpa using hcounted
  have hprio := hranks.prio hhigh
  by_cases hrequests : t.pc.requests = true
  · exact ⟨.inr (.inr ⟨hrequests, hhigh⟩),
      fun hexclusive => .inr (.inr ⟨hrequests, by simp [Thread.goesBefore, hhigh, hexclusive]⟩)⟩
  by_cases htakes : t.pc.takes = true
  · have hx := hknows.xHeld_of_takes htakes
    exact ⟨.inl (.inl hx), fun _ => .inl hx⟩
  have hwithdraw : t.pc = .withdraw := by
    cases h : t.pc <;> simp_all [Pc.counted, Pc.requests, Pc.tries, Pc.takes]
  simp only [Knows, hwithdraw] at hknows
  refine ⟨.inl ?_, fun hexclusive => .inl (hknows.2 hexclusive)⟩
  rcases hknows.1 with hs | hx
  · exact .inr ⟨hprio, hs⟩
  · exact .inl hx

theorem Thread.awaits_cases {w : Signal} (h : t.awaits = some w) :
    (w = .waitEx ∧ (t.pc = .beginWaitEx ∨ t.pc = .sleepEx)) ∨
      (w = t.cell ∧ (t.pc = .beginWait ∨ t.pc = .sleep ∨ (t.pc = .testWriter ∧ t.site = .last))) := by
  cases hpc : t.pc <;> simp only [Thread.awaits, Pc.awaits, hpc, Option.some_inj, reduceCtorEq] at h
  case beginWaitEx | sleepEx => exact .inl ⟨h.symm, by simp⟩
  case beginWait | sleep => exact .inr ⟨h.symm, by simp⟩
  case testWriter =>
    split_ifs at h with hlast
    exact .inr ⟨(Option.some_inj.mp h).symm, by simp [hlast.1]⟩

/-- Whoever awaits an event has reset it and announced itself. -/
theorem Thread.registered_of_awaits {w : Signal} (h : t.awaits = some w) :
    t.registered = some w ∧ t.pc ≠ .announce := by
  rcases t.awaits_cases h with ⟨rfl, hpc | hpc⟩ | ⟨rfl, hpc | hpc | ⟨hpc, hsite⟩⟩ <;>
    simp_all [Thread.registered, Pc.registered, Pc.tries]

theorem Thread.cell_ne_waitEx : t.cell ≠ .waitEx := by
  unfold Thread.cell
  split_ifs <;> simp

/-- Whoever awaits the event of its cell has announced itself. -/
theorem Thread.counted_of_awaits {w : Signal} (h : t.awaits = some w) (hw : w ≠ .waitEx) :
    w = t.cell ∧ t.pc.counted t.site = true := by
  rcases t.awaits_cases h with ⟨hwait, -⟩ | ⟨hcell, hpc⟩
  · exact absurd hwait hw
  · refine ⟨hcell, ?_⟩
    rcases hpc with hpc | hpc | ⟨hpc, hsite⟩ <;> simp [Pc.counted, Pc.tries, *]

theorem Thread.countedS_of_awaits (h : t.awaits = some .highS) : t.countedS = true := by
  obtain ⟨hcell, hcounted⟩ := Thread.counted_of_awaits h (by simp)
  unfold Thread.cell at hcell
  split_ifs at hcell with hhigh hexclusive
  simp [Thread.countedS, hhigh, hcounted, hexclusive]

theorem Thread.countedX_of_awaits (h : t.awaits = some .highX) : t.countedX = true := by
  obtain ⟨hcell, hcounted⟩ := Thread.counted_of_awaits h (by simp)
  unfold Thread.cell at hcell
  split_ifs at hcell with hhigh hexclusive
  simp [Thread.countedX, hhigh, hcounted, hexclusive]

end Multicore.RwLock
