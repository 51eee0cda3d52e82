import Multicore.RwLock.Model

/-!
# What a thread does to the lock word

A thread that takes a lock takes its part from the lock word: 1 for a shared lock, `X_LOCK_DECR` for the
first and the second exclusive lock and 1 for every further one. This module says what one thread may do
to the lock word, to the id of the writer and to the recursion flag, step by step, and what it may rely
on at every place inside the functions while the others go on.
-/

namespace Multicore.RwLock

variable {n : ℕ} {prio : Bool} {rounds : ℕ} {i : Fin n} {l l' : PrioRwLock n} {t t' : Thread n}

/-- What `c` exclusive locks of one thread take from the lock word. -/
def weight : ℕ → ℤ
  | 0 => 0
  | 1 => xLockDecr
  | c + 2 => 2 * xLockDecr + c

/-- What the locks of a thread take from the lock word. -/
def Thread.taken (t : Thread n) : ℤ := t.sHeld.toNat + weight t.xHeld

/-- The site is one of `rw_lock_s_lock_func` and `rw_lock_x_lock_func`. -/
def Site.waits : Site → Bool
  | .nowait | .moveOwnership => false
  | _ => true

/-- The thread has made itself the next writer and may still find readers. -/
def Thread.draining (t : Thread n) : Bool :=
  match t.pc with
  | .assertRecursive | .setWaitEx | .waitEx | .reserveEx | .testEx | .beginWaitEx | .sleepEx => true
  | .loadWriter | .casWriter | .setRecursive => t.site.waits
  | _ => false

section

variable {which : Signal} {f : OsEvent → OsEvent}

@[simp] theorem onEvent_lockWord : (l.onEvent which f).lockWord = l.lockWord := by cases which <;> rfl

@[simp] theorem onEvent_recursive : (l.onEvent which f).recursive = l.recursive := by cases which <;> rfl

@[simp] theorem onEvent_writerThread : (l.onEvent which f).writerThread = l.writerThread := by
  cases which <;> rfl

@[simp] theorem announceWaiter_lockWord : (l.announceWaiter t).lockWord = l.lockWord := by
  unfold PrioRwLock.announceWaiter; repeat' split
  all_goals rfl

@[simp] theorem announceWaiter_recursive : (l.announceWaiter t).recursive = l.recursive := by
  unfold PrioRwLock.announceWaiter; repeat' split
  all_goals rfl

@[simp] theorem announceWaiter_writerThread : (l.announceWaiter t).writerThread = l.writerThread := by
  unfold PrioRwLock.announceWaiter; repeat' split
  all_goals rfl

@[simp] theorem withdrawWaiter_lockWord : (l.withdrawWaiter t).lockWord = l.lockWord := by
  unfold PrioRwLock.withdrawWaiter; split <;> rfl

@[simp] theorem withdrawWaiter_recursive : (l.withdrawWaiter t).recursive = l.recursive := by
  unfold PrioRwLock.withdrawWaiter; split <;> rfl

@[simp] theorem withdrawWaiter_writerThread : (l.withdrawWaiter t).writerThread = l.writerThread := by
  unfold PrioRwLock.withdrawWaiter; split <;> rfl

end

/-! ### What a thread knows -/

/-- A thread inside `rw_lock_s_lock_func` or `rw_lock_x_lock_func` holds nothing, or it is the writer
and asks once more. -/
structure Asks (l : PrioRwLock n) (t : Thread n) : Prop where
  site : t.site.waits = true
  shared : t.sHeld = false
  bounded : (t.xHeld : ℤ) < xLockDecr
  again : 0 < t.xHeld → t.exclusive = true ∧ t.pass = false ∧ l.recursive = true

/-- The flag the thread has read does not make it take itself for the writer. -/
structure Recalls (l : PrioRwLock n) (i : Fin n) (t : Thread n) : Prop where
  stale : t.localRecursive = true → t.xHeld = 0 → l.writerThread ≠ some i
  own : t.site.waits = true → 0 < t.xHeld → t.localRecursive = true

/-- The thread is about to write its id. -/
def Claims (l : PrioRwLock n) (t : Thread n) : Prop :=
  if t.site = .moveOwnership then 0 < t.xHeld else t.xHeld = 1 ∧ l.recursive = false

theorem Claims.pos (h : Claims l t) : 0 < t.xHeld := by
  unfold Claims at h
  split at h
  · exact h
  · omega

/-- What thread `i` knows at its place. -/
def Knows (l : PrioRwLock n) (i : Fin n) (t : Thread n) : Prop :=
  match t.pc with
  | .askWaitEx | .askS | .askX => Asks l t ∧ (t.site = .last → t.xHeld = 0)
  | .spin | .reserve | .announce => Asks l t
  | .loadRecursive => (t.site = .nowait ∧ (t.xHeld : ℤ) < xLockDecr) ∨ Asks l t
  | .load => Asks l t ∧ (t.exclusive = true → Recalls l i t)
  | .cas => Asks l t ∧ (t.exclusive = true → Recalls l i t) ∧ 0 < t.localLockWord
  | .casFree => t.site = .nowait ∧ (t.xHeld : ℤ) < xLockDecr ∧ Recalls l i t
  | .testWriter =>
    ((t.site = .nowait ∧ (t.xHeld : ℤ) < xLockDecr) ∨ Asks l t) ∧ Recalls l i t ∧
      t.localRecursive = true
  | .beginWait | .sleep | .woken => t.site.waits = true ∧ t.sHeld = false ∧ t.xHeld = 0
  | .assertRecursive => t.site.waits = true ∧ t.xHeld = 1 ∧ l.recursive = false
  | .loadWriter => Claims l t
  | .casWriter => Claims l t ∧ t.localThread = l.writerThread
  | .setRecursive => (t.site ≠ .moveOwnership → t.xHeld = 1) ∧ 0 < t.xHeld ∧ l.writerThread = some i
  | .setWaitEx | .waitEx | .reserveEx | .testEx | .beginWaitEx | .sleepEx | .clearWaitEx => t.xHeld = 1
  | .relockTest => 0 < t.xHeld ∧ (t.xHeld : ℤ) < xLockDecr
  | .relockLoad =>
    (0 < t.xHeld ∧ (t.xHeld : ℤ) < xLockDecr) ∧ weight t.xHeld + t.amount = weight (t.xHeld + 1)
  | .relockStore =>
    (0 < t.xHeld ∧ (t.xHeld : ℤ) < xLockDecr) ∧
      t.localLockWord + weight (t.xHeld + 1) = xLockDecr
  | .sUnlock => t.sHeld = true
  | .xPrepare => 0 < t.xHeld
  | .xClear => t.xHeld = 1
  | .xTestZero => 0 < t.xHeld ∧ (t.xHeld = 1 → l.recursive = false)
  | .xTestMinus => 2 ≤ t.xHeld
  | .xUnlock =>
    (0 < t.xHeld ∧ (t.xHeld = 1 → l.recursive = false)) ∧
      weight (t.xHeld - 1) + t.amount = weight t.xHeld
  | .withdraw => (t.sHeld = true ∨ 0 < t.xHeld) ∧ (t.exclusive = true → 0 < t.xHeld)
  | .failed => False
  | .idle | .signalEx | .readHighX | .signalHighX | .readHighS | .signalHighS
  | .readWaiters | .resetWaiters | .signal => True

/-- What thread `i` finds in the lock. -/
structure View (l : PrioRwLock n) (i : Fin n) (t : Thread n) : Prop where
  apart : 0 < t.xHeld → t.sHeld = false
  bounded : (t.xHeld : ℤ) ≤ xLockDecr
  free : 0 < l.lockWord → t.xHeld = 0 ∧ l.recursive = false
  none : l.lockWord = xLockDecr → t.sHeld = false
  whole : 0 < t.xHeld → t.draining = false → l.lockWord + weight t.xHeld = xLockDecr
  writer : 0 < t.xHeld → l.recursive = true → l.writerThread = some i
  other : t.xHeld = 0 → l.recursive = true → l.writerThread ≠ some i

/-- What thread `i` may do to the lock when it goes from `t` to `t'`. -/
structure Moves (i : Fin n) (l : PrioRwLock n) (t : Thread n) (l' : PrioRwLock n) (t' : Thread n) :
    Prop where
  /-- What the thread takes is taken from the lock word. -/
  word : l'.lockWord + t'.taken = l.lockWord + t.taken
  apart : 0 < t'.xHeld → t'.sHeld = false
  bounded : (t'.xHeld : ℤ) ≤ xLockDecr
  reader : t'.sHeld = true → t.sHeld = true ∨ 0 < l.lockWord
  owner : 0 < t'.xHeld → 0 < t.xHeld ∨ 0 < l.lockWord
  /-- Readers are out once the thread is the writer. -/
  whole : 0 < t'.xHeld → t'.draining = false →
    (0 < t.xHeld ∧ (t.draining = false ∨ 0 ≤ l.lockWord)) ∨ l.lockWord = xLockDecr
  /-- Only the writer writes the id and the flag. -/
  fields : (l'.recursive = l.recursive ∧ l'.writerThread = l.writerThread) ∨ 0 < t.xHeld
  id : l'.writerThread = l.writerThread ∨ l'.writerThread = some i
  recursive : l'.recursive = true →
    (l.recursive = true ∧ l'.writerThread = l.writerThread ∧ (0 < t.xHeld → 0 < t'.xHeld)) ∨
      (0 < t'.xHeld ∧ l'.writerThread = some i)
  knows : Knows l' i t'

section Weight

variable {c : ℕ}

theorem weight_eq_decr_iff (hc : 0 < c) : weight c = xLockDecr ↔ c = 1 := by
  match c with
  | 1 => simp [weight]
  | c + 2 => simp [weight, xLockDecr]; omega

theorem weight_eq_twice_iff : weight c = 2 * xLockDecr ↔ c = 2 := by
  match c with
  | 0 | 1 => simp [weight, xLockDecr]
  | c + 2 => simp [weight]

theorem weight_succ (hc : 2 ≤ c) : weight (c + 1) = weight c + 1 := by
  match c with
  | c + 2 => simp [weight]; omega

theorem decr_le_weight (hc : 0 < c) : xLockDecr ≤ weight c := by
  match c with
  | 1 => exact le_rfl
  | c + 2 => simp [weight, xLockDecr]; omega

theorem weight_nonneg (c : ℕ) : 0 ≤ weight c := by
  match c with
  | 0 => exact le_rfl
  | 1 => decide
  | c + 2 => simp [weight, xLockDecr]; omega

/-- The lock word of a writer. -/
theorem word_of_weight {w : ℤ} (hc : 0 < c) (hw : w = xLockDecr - weight c) :
    (c = 1 ∧ w = 0) ∨ (2 ≤ c ∧ w = -xLockDecr - (c - 2)) := by
  match c with
  | 1 => exact .inl ⟨rfl, by simpa [weight] using hw⟩
  | c + 2 =>
    refine .inr ⟨by omega, ?_⟩
    rw [hw, weight]
    push_cast
    omega

end Weight

namespace Asks

theorem of_eq (h : Asks l t) (hsite : t'.site.waits = true) (hs : t'.sHeld = t.sHeld)
    (hx : t'.xHeld = t.xHeld) (he : t'.exclusive = t.exclusive) (hp : t'.pass = t.pass) :
    Asks l t' :=
  ⟨hsite, hs ▸ h.shared, hx ▸ h.bounded, by rw [hx, he, hp]; exact h.again⟩

theorem goTo (h : Asks l t) {site : Site} (hsite : site.waits = true) (pc : Pc) :
    Asks l (t.goTo (site, pc)) :=
  h.of_eq hsite rfl rfl rfl rfl

theorem not_exclusive (h : Asks l t) (hshared : t.exclusive = false) : t.xHeld = 0 := by
  by_contra hx
  simpa [hshared] using (h.again (by omega)).1

theorem knows_attempt (h : Asks l t) {site : Site} (hsite : site.waits = true) :
    Knows l i (t.goTo (t.attempt site)) := by
  cases site <;> cases hexclusive : t.exclusive <;>
    simp only [Thread.attempt, hexclusive, Bool.false_eq_true, if_false, if_true]
  all_goals first
    | exact h.goTo hsite _
    | exact .inr (h.goTo hsite _)
    | exact ⟨h.goTo hsite _, fun hx => absurd (hexclusive.symm.trans hx) Bool.false_ne_true⟩

theorem knows_ask (h : Asks l t) {site : Site} (hsite : site.waits = true)
    (hlast : site = .last → t.xHeld = 0) : Knows l i (t.goTo (t.ask prio site)) := by
  unfold Thread.ask
  split
  · exact ⟨h.goTo hsite _, hlast⟩
  · exact h.knows_attempt hsite

theorem knows_refused (h : Asks l t) (hlast : t.site = .last → t.xHeld = 0) :
    Knows l i (t.goTo (t.refused prio rounds)) := by
  unfold Thread.refused
  cases hsite : t.site <;> dsimp only
  case first => exact h.knows_ask rfl (by simp)
  case spin =>
    split
    · exact h.goTo rfl _
    · exact h.knows_ask rfl (by simp)
  case again =>
    split
    · exact h.knows_ask rfl (by simp)
    · exact h.goTo rfl _
  case last => exact ⟨rfl, h.shared, hlast hsite⟩
  case nowait => trivial
  case moveOwnership => trivial

end Asks

theorem knows_refused_nowait (h : t.site = .nowait) : Knows l i (t.goTo (t.refused prio rounds)) := by
  simp [Thread.refused, h, Thread.goTo, Knows]

theorem knows_lockLoop (h : t.site.waits = true ∧ t.sHeld = false ∧ t.xHeld = 0) :
    Knows l i ({ t with spins := 0 }.goTo (t.lockLoop prio)) := by
  have hasks : Asks l { t with spins := 0 } :=
    ⟨h.1, h.2.1, by simp [h.2.2, xLockDecr], fun hx => by simp [h.2.2] at hx⟩
  have hsite : (if t.exclusive then Site.first else .spin).waits = true := by split <;> rfl
  exact hasks.knows_ask hsite fun _ => h.2.2

theorem granted_cases (t : Thread n) : t.granted = .withdraw ∨ t.granted = .idle := by
  unfold Thread.granted
  split
  · exact .inl rfl
  · exact .inr rfl

theorem knows_granted (hpc : t'.pc = t.granted)
    (hheld : (t'.exclusive = false ∧ t'.sHeld = true) ∨ 0 < t'.xHeld) : Knows l i t' := by
  rcases granted_cases t with h | h
  · simp only [Knows, hpc, h]
    rcases hheld with ⟨hshared, hs⟩ | hx
    · exact ⟨.inl hs, by simp [hshared]⟩
    · exact ⟨.inr hx, fun _ => hx⟩
  · simp [Knows, hpc, h]

/-- A step that takes and gives back nothing. -/
theorem moves_of_same (hview : View l i t) (hs : t'.sHeld = t.sHeld) (hx : t'.xHeld = t.xHeld)
    (hword : l'.lockWord = l.lockWord) (hrecursive : l'.recursive = l.recursive)
    (hwriter : l'.writerThread = l.writerThread)
    (hwhole : 0 < t.xHeld → t.draining = true → t'.draining = true ∨ 0 ≤ l.lockWord)
    (hknows : Knows l' i t') : Moves i l t l' t' where
  word := by simp [Thread.taken, hs, hx, hword]
  apart := by simpa [hs, hx] using hview.apart
  bounded := hx ▸ hview.bounded
  reader := by simp [hs]; tauto
  owner := by simp [hx]; tauto
  whole hx' hdraining := by
    rw [hx] at hx'
    cases hd : t.draining with
    | false => exact .inl ⟨hx', .inl rfl⟩
    | true =>
      rcases hwhole hx' hd with hd' | hnonneg
      · simp [hd'] at hdraining
      · exact .inl ⟨hx', .inr hnonneg⟩
  fields := .inl ⟨hrecursive, hwriter⟩
  id := .inl hwriter
  recursive h := .inl ⟨hrecursive ▸ h, hwriter, fun h => hx ▸ h⟩
  knows := hknows

/-- Another thread's step leaves what a thread knows as it is. -/
theorem Knows.frame (h : Knows l i t)
    (hfields : 0 < t.xHeld → l'.recursive = l.recursive ∧ l'.writerThread = l.writerThread)
    (hid : l'.writerThread = some i → l.writerThread = some i) : Knows l' i t := by
  have hasks : Asks l t → Asks l' t := fun h =>
    ⟨h.site, h.shared, h.bounded, fun hx => by rw [(hfields hx).1]; exact h.again hx⟩
  have hrecalls : Recalls l i t → Recalls l' i t := fun h =>
    ⟨fun hlocal hx hw => h.stale hlocal hx (hid hw), h.own⟩
  have hrecursive : 0 < t.xHeld → l.recursive = false → l'.recursive = false := fun hx h => by
    rw [(hfields hx).1, h]
  have hclaims : Claims l t → Claims l' t := by
    unfold Claims
    split
    · exact id
    · exact fun h => ⟨h.1, hrecursive (by omega) h.2⟩
  have hpos : Claims l t → 0 < t.xHeld := Claims.pos
  cases hpc : t.pc <;> simp only [Knows, hpc] at h ⊢ <;> grind

/-- The writer has read its own flag, so a relock does not fail. -/
theorem Knows.xHeld_of_refused (h : Knows l i t) (hpc : t.pc = .load)
    (hnot : ¬ (t.exclusive = true ∧ t.pass = false ∧ t.localRecursive = true)) : t.xHeld = 0 := by
  simp only [Knows, hpc] at h
  obtain ⟨hasks, hrecalls⟩ := h
  by_contra hx
  have hpos : 0 < t.xHeld := by omega
  obtain ⟨hexclusive, hpass, -⟩ := hasks.again hpos
  exact hnot ⟨hexclusive, hpass, (hrecalls hexclusive).own hasks.site hpos⟩

/-- The id of the writer tells a thread whether it is the writer. -/
theorem Knows.xHeld_of_testWriter (h : Knows l i t) (hview : View l i t) (hpc : t.pc = .testWriter) :
    (l.writerThread = some i → 0 < t.xHeld) ∧
      (t.site ≠ .nowait → l.writerThread ≠ some i → t.xHeld = 0) := by
  simp only [Knows, hpc] at h
  obtain ⟨hcall, hrecalls, hlocal⟩ := h
  refine ⟨fun hwriter => ?_, fun hsite hwriter => ?_⟩ <;> by_contra hx
  · exact hrecalls.stale hlocal (Nat.eq_zero_of_not_pos hx) hwriter
  · have hasks := hcall.resolve_left fun h => hsite h.1
    have hpos : 0 < t.xHeld := by omega
    exact hwriter (hview.writer hpos (hasks.again hpos).2.2)

/-- A step that only reads, of a thread that is not draining. -/
theorem moves_reading (hview : View l i t) (hdraining : t.draining = false)
    (hs : t'.sHeld = t.sHeld) (hx : t'.xHeld = t.xHeld) (hknows : Knows l i t') : Moves i l t l t' :=
  moves_of_same hview hs hx rfl rfl rfl (fun _ hd => by simp [hdraining] at hd) hknows

section Next

variable (hview : View l i t) (hknows : Knows l i t)
include hview hknows

theorem moves_ask (hpc : t.pc = .askWaitEx ∨ t.pc = .askS ∨ t.pc = .askX ∨ t.pc = .spin) :
    Moves i l t (next prio rounds l i t).1 (next prio rounds l i t).2 := by
  have hdraining : t.draining = false := by rcases hpc with h | h | h | h <;> simp [Thread.draining, h]
  rcases hpc with h | h | h | h <;> simp only [Knows, h] at hknows <;> simp only [next, h]
  · split
    · exact moves_reading hview hdraining rfl rfl (hknows.1.knows_refused hknows.2)
    · exact moves_reading hview hdraining rfl rfl ⟨hknows.1.goTo hknows.1.site _, hknows.2⟩
  · split
    · exact moves_reading hview hdraining rfl rfl (hknows.1.knows_refused hknows.2)
    · exact moves_reading hview hdraining rfl rfl ⟨hknows.1.goTo hknows.1.site _, hknows.2⟩
  · split
    · exact moves_reading hview hdraining rfl rfl (hknows.1.knows_refused hknows.2)
    · exact moves_reading hview hdraining rfl rfl (hknows.1.knows_attempt hknows.1.site)
  · split
    · refine moves_reading hview hdraining rfl rfl ?_
      simp only [Knows]
      exact hknows.of_eq hknows.site rfl rfl rfl rfl
    · split
      · split
        · exact moves_reading hview hdraining rfl rfl (hknows.goTo hknows.site _)
        · exact moves_reading hview hdraining rfl rfl (hknows.knows_ask rfl (by simp))
      · exact moves_reading hview hdraining rfl rfl (hknows.knows_ask rfl (by simp))

theorem moves_loadRecursive (hpc : t.pc = .loadRecursive) :
    Moves i l t (next prio rounds l i t).1 (next prio rounds l i t).2 := by
  have hdraining : t.draining = false := by simp [Thread.draining, hpc]
  simp only [Knows, hpc] at hknows
  simp only [next, hpc]
  refine moves_reading hview hdraining rfl rfl ?_
  have hstale : l.recursive = true → t.xHeld = 0 → l.writerThread ≠ some i := fun h hx => hview.other hx h
  rcases hknows with ⟨hsite, hbounded⟩ | hasks
  · simp only [if_pos hsite]
    exact ⟨hsite, hbounded, hstale, fun hwaits => by simp [hsite, Site.waits] at hwaits⟩
  · have hsite : t.site ≠ .nowait := fun h => by simpa [h, Site.waits] using hasks.site
    simp only [if_neg hsite]
    exact ⟨hasks.of_eq hasks.site rfl rfl rfl rfl, fun _ => ⟨hstale, fun _ hx => (hasks.again hx).2.2⟩⟩

theorem moves_load (hpc : t.pc = .load) :
    Moves i l t (next prio rounds l i t).1 (next prio rounds l i t).2 := by
  have hdraining : t.draining = false := by simp [Thread.draining, hpc]
  have hrefused := hknows.xHeld_of_refused hpc
  simp only [Knows, hpc] at hknows
  obtain ⟨hasks, hrecalls⟩ := hknows
  simp only [next, hpc]
  split
  · exact moves_reading hview hdraining rfl rfl
      ⟨hasks.of_eq hasks.site rfl rfl rfl rfl, fun h => ⟨(hrecalls h).stale, (hrecalls h).own⟩, ‹_›⟩
  · split
    · rename_i h
      exact moves_reading hview hdraining rfl rfl ⟨.inr (hasks.goTo hasks.site _),
        ⟨(hrecalls h.1).stale, (hrecalls h.1).own⟩, h.2.2⟩
    · exact moves_reading hview hdraining rfl rfl (hasks.knows_refused fun _ => hrefused ‹_›)

theorem moves_cas (hpc : t.pc = .cas) :
    Moves i l t (next prio rounds l i t).1 (next prio rounds l i t).2 := by
  have hdraining : t.draining = false := by simp [Thread.draining, hpc]
  simp only [Knows, hpc] at hknows
  obtain ⟨hasks, hrecalls, hpos⟩ := hknows
  simp only [next, hpc]
  split
  · rename_i hword
    obtain ⟨hx, hrecursive⟩ := hview.free (hword ▸ hpos)
    have hs := hasks.shared
    split
    · refine ⟨?_, fun _ => hs, ?_, fun h => ?_, fun _ => .inr (hword ▸ hpos), fun _ h => ?_,
        .inl ⟨rfl, rfl⟩, .inl rfl, fun h => ?_, ?_⟩
      · simp [Thread.taken, hx, weight, hword]
      · simp [hx, xLockDecr]
      · simp [hs] at h
      · simp [Thread.draining] at h
      · simp [hrecursive] at h
      · exact ⟨hasks.site, by simp [hx], hrecursive⟩
    · refine ⟨?_, fun h => ?_, hview.bounded, fun _ => .inr (hword ▸ hpos), fun h => ?_, fun h => ?_,
        .inl ⟨rfl, rfl⟩, .inl rfl, fun h => ?_, knows_granted rfl (.inl ⟨Bool.eq_false_iff.mpr ‹_›, rfl⟩)⟩
      · simp [Thread.taken, hx, weight, hword, hs]
      all_goals simp_all
  · exact moves_reading hview hdraining rfl rfl
      ⟨hasks.goTo hasks.site _, fun h => ⟨(hrecalls h).stale, (hrecalls h).own⟩⟩

theorem moves_casFree (hpc : t.pc = .casFree) :
    Moves i l t (next prio rounds l i t).1 (next prio rounds l i t).2 := by
  have hdraining : t.draining = false := by simp [Thread.draining, hpc]
  simp only [Knows, hpc] at hknows
  obtain ⟨hsite, hbounded, hrecalls⟩ := hknows
  simp only [next, hpc]
  split
  · rename_i hword
    have hpos : 0 < l.lockWord := by rw [hword]; decide
    obtain ⟨hx, hrecursive⟩ := hview.free hpos
    have hs := hview.none hword
    refine ⟨?_, fun _ => hs, ?_, fun h => ?_, fun _ => .inr hpos, fun _ _ => .inr hword,
      .inl ⟨rfl, rfl⟩, .inl rfl, fun h => ?_, ?_⟩
    · simp [Thread.taken, hx, weight, hword, hs]
    · simp [hx, xLockDecr]
    · simp [hs] at h
    · simp [hrecursive] at h
    · simp [Knows, Claims, hsite, hx, hrecursive]
  · split
    · exact moves_reading hview hdraining rfl rfl
        ⟨.inl ⟨hsite, hbounded⟩, ⟨hrecalls.stale, hrecalls.own⟩, ‹_›⟩
    · exact moves_reading hview hdraining rfl rfl (knows_refused_nowait hsite)

theorem moves_claim (hpc : t.pc = .assertRecursive ∨ t.pc = .loadWriter ∨ t.pc = .casWriter) :
    Moves i l t (next prio rounds l i t).1 (next prio rounds l i t).2 := by
  rcases hpc with hpc | hpc | hpc <;> simp only [Knows, hpc] at hknows <;> simp only [next, hpc]
  · obtain ⟨hsite, hx, hrecursive⟩ := hknows
    have hmove : t.site ≠ .moveOwnership := fun h => by simp [h, Site.waits] at hsite
    refine moves_of_same hview rfl rfl rfl rfl rfl (fun _ _ => .inl ?_) ?_
    · simp [Thread.draining, hrecursive, hsite]
    · simp [Knows, Claims, hrecursive, hmove, hx]
  · refine moves_of_same hview rfl rfl rfl rfl rfl (fun _ hd => .inl ?_) ⟨hknows, rfl⟩
    simpa [Thread.draining, hpc] using hd
  · obtain ⟨hclaims, hlocal⟩ := hknows
    rw [if_pos hlocal.symm]
    have hx := hclaims.pos
    refine ⟨rfl, hview.apart, hview.bounded, .inl, .inl, fun _ hd => .inl ⟨hx, .inl ?_⟩, .inr hx,
      .inr rfl, fun _ => .inr ⟨hx, rfl⟩, fun hsite => ?_, hx, rfl⟩
    · simpa [Thread.draining, hpc] using hd
    · rw [Claims, if_neg hsite] at hclaims
      exact hclaims.1

theorem moves_setRecursive (hpc : t.pc = .setRecursive) :
    Moves i l t (next prio rounds l i t).1 (next prio rounds l i t).2 := by
  simp only [Knows, hpc] at hknows
  obtain ⟨hone, hx, hwriter⟩ := hknows
  have hdraining : t.draining = t.site.waits := by simp [Thread.draining, hpc]
  simp only [next, hpc]
  -- Whoever goes on in `rw_lock_x_lock_wait` is still draining.
  have hmoves : ∀ t' : Thread n, t'.sHeld = t.sHeld → t'.xHeld = t.xHeld →
      (t.site.waits = true → t'.draining = true) →
      Knows { l with recursive := t.recursionFlag } i t' →
      Moves i l t { l with recursive := t.recursionFlag } t' := by
    intro t' hs hx' hd hknows'
    refine ⟨by simp [Thread.taken, hs, hx'], by simpa [hs, hx'] using hview.apart, hx' ▸ hview.bounded,
      fun h => .inl (hs ▸ h), fun h => .inl (hx' ▸ h), fun _ h => .inl ⟨hx, .inl ?_⟩, .inr hx, .inl rfl,
      fun _ => .inr ⟨hx' ▸ hx, hwriter⟩, hknows'⟩
    rw [hdraining]
    by_contra hwaits
    simp [hd (by simpa using hwaits)] at h
  cases hsite : t.site <;> dsimp only
  case nowait => exact hmoves _ rfl rfl (by simp [hsite, Site.waits]) trivial
  case moveOwnership => exact hmoves _ rfl rfl (by simp [hsite, Site.waits]) trivial
  all_goals
    have hone := hone (by simp [hsite])
    cases hhigh : t.high <;>
      exact hmoves _ rfl rfl (by simp [Thread.draining]) (by simpa [Knows] using hone)

theorem moves_waitEx (hpc : t.pc = .setWaitEx ∨ t.pc = .waitEx ∨ t.pc = .reserveEx ∨ t.pc = .testEx ∨
      t.pc = .beginWaitEx ∨ t.pc = .sleepEx ∨ t.pc = .clearWaitEx) :
    Moves i l t (next prio rounds l i t).1 (next prio rounds l i t).2 := by
  have hx : t.xHeld = 1 := by
    rcases hpc with h | h | h | h | h | h | h <;> simpa only [Knows, h] using hknows
  have hsame : ∀ (l' : PrioRwLock n) (t' : Thread n), t'.sHeld = t.sHeld → t'.xHeld = t.xHeld →
      l'.lockWord = l.lockWord → l'.recursive = l.recursive → l'.writerThread = l.writerThread →
      t'.draining = true ∨ 0 ≤ l.lockWord ∨ t.draining = false → Knows l' i t' → Moves i l t l' t' :=
    fun l' t' hs hx' hword hrecursive hwriter hwhole hknows' =>
      moves_of_same hview hs hx' hword hrecursive hwriter (fun _ hd => by simp_all) hknows'
  rcases hpc with h | h | h | h | h | h | h <;> simp only [next, h]
  · exact hsame _ _ rfl rfl rfl rfl rfl (.inl rfl) hx
  · split
    · split
      · exact hsame _ _ rfl rfl rfl rfl rfl (.inl (by simp [Thread.draining])) (by simpa [Knows])
      · exact hsame _ _ rfl rfl rfl rfl rfl (.inl rfl) hx
    · refine hsame _ _ rfl rfl rfl rfl rfl (.inr (.inl (by omega))) ?_
      split
      · exact hx
      · exact knows_granted rfl (.inr (by simp [hx]))
  · exact hsame _ _ rfl rfl rfl rfl rfl (.inl rfl) hx
  · split <;> exact hsame _ _ rfl rfl rfl rfl rfl (.inl rfl) hx
  · exact hsame _ _ rfl rfl rfl rfl rfl (.inl rfl) hx
  · exact hsame _ _ rfl rfl rfl rfl rfl (.inl rfl) hx
  · exact hsame _ _ rfl rfl rfl rfl rfl (.inr (.inr (by simp [Thread.draining, h])))
      (knows_granted rfl (.inr (by simp [hx])))

theorem moves_testWriter (hpc : t.pc = .testWriter) :
    Moves i l t (next prio rounds l i t).1 (next prio rounds l i t).2 := by
  have hdraining : t.draining = false := by simp [Thread.draining, hpc]
  have howner := hknows.xHeld_of_testWriter hview hpc
  simp only [Knows, hpc] at hknows
  obtain ⟨hcall, hrecalls, hlocal⟩ := hknows
  simp only [next, hpc]
  split
  · exact moves_reading hview hdraining rfl rfl ⟨howner.1 ‹_›, hcall.elim And.right Asks.bounded⟩
  · refine moves_reading hview hdraining rfl rfl ?_
    rcases hcall with ⟨hsite, -⟩ | hasks
    · exact knows_refused_nowait hsite
    · refine hasks.knows_refused fun hsite => howner.2 (by simp [hsite]) ‹_›

theorem moves_relock (hpc : t.pc = .relockTest ∨ t.pc = .relockLoad ∨ t.pc = .relockStore) :
    Moves i l t (next prio rounds l i t).1 (next prio rounds l i t).2 := by
  have hdraining : t.draining = false := by rcases hpc with h | h | h <;> simp [Thread.draining, h]
  rcases hpc with hpc | hpc | hpc <;> simp only [Knows, hpc] at hknows <;> simp only [next, hpc]
  · have hword := hview.whole hknows.1 hdraining
    split
    · have hone : t.xHeld = 1 := (weight_eq_decr_iff hknows.1).mp (by omega)
      split
      · refine moves_reading hview hdraining rfl rfl ⟨hknows, ?_⟩
        simp [hone, weight, xLockDecr]
      · refine moves_reading hview hdraining rfl rfl ⟨hknows, ?_⟩
        simp [hone, weight, xLockDecr]
    · refine moves_reading hview hdraining rfl rfl ⟨hknows, ?_⟩
      have hne : t.xHeld ≠ 1 := fun h => by
        rw [(weight_eq_decr_iff hknows.1).mpr h] at hword
        omega
      exact (weight_succ (c := t.xHeld) (by omega)).symm
  · obtain ⟨hx, hamount⟩ := hknows
    have hword := hview.whole hx.1 hdraining
    refine moves_reading hview hdraining rfl rfl ⟨hx, ?_⟩
    dsimp only
    omega
  · obtain ⟨hx, hlocal⟩ := hknows
    have hword := hview.whole hx.1 hdraining
    have hs := hview.apart hx.1
    refine ⟨?_, fun _ => hs, ?_, .inl, fun _ => .inl hx.1, fun _ _ => .inl ⟨hx.1, .inl hdraining⟩,
      .inl ⟨rfl, rfl⟩, .inl rfl, fun h => .inl ⟨h, rfl, fun _ => Nat.succ_pos _⟩,
      knows_granted rfl (.inr (Nat.succ_pos _))⟩
    · simp only [Thread.taken]
      omega
    · push_cast
      omega

theorem moves_wait (hpc : t.pc = .reserve ∨ t.pc = .announce ∨ t.pc = .beginWait ∨ t.pc = .sleep ∨
      t.pc = .woken ∨ t.pc = .withdraw) :
    Moves i l t (next prio rounds l i t).1 (next prio rounds l i t).2 := by
  have hdraining : t.draining = false := by
    rcases hpc with h | h | h | h | h | h <;> simp [Thread.draining, h]
  have hsame : ∀ (l' : PrioRwLock n) (t' : Thread n), t'.sHeld = t.sHeld → t'.xHeld = t.xHeld →
      l'.lockWord = l.lockWord → l'.recursive = l.recursive → l'.writerThread = l.writerThread →
      Knows l i t' → Moves i l t l' t' :=
    fun l' t' hs hx hword hrecursive hwriter hknows' =>
      moves_of_same hview hs hx hword hrecursive hwriter (fun _ hd => by simp [hdraining] at hd)
        (hknows'.frame (fun _ => ⟨hrecursive, hwriter⟩) fun h => hwriter ▸ h)
  rcases hpc with hpc | hpc | hpc | hpc | hpc | hpc <;> simp only [Knows, hpc] at hknows <;>
    simp only [next, hpc]
  · exact hsame _ _ rfl rfl (by simp) (by simp) (by simp) (hknows.of_eq hknows.site rfl rfl rfl rfl)
  · refine hsame _ _ rfl rfl (by simp) (by simp) (by simp) ?_
    split
    · exact hknows.knows_attempt rfl
    · rename_i hshared
      exact hknows.knows_ask rfl fun _ => hknows.not_exclusive (by simpa using hshared)
  · exact hsame _ _ rfl rfl rfl rfl rfl hknows
  · split
    · exact hsame _ _ rfl rfl rfl rfl rfl hknows
    · exact hsame _ _ rfl rfl rfl rfl rfl (knows_lockLoop hknows)
  · exact hsame _ _ rfl rfl (by simp) (by simp) (by simp) (knows_lockLoop hknows)
  · exact hsame _ _ rfl rfl (by simp) (by simp) (by simp) trivial

theorem moves_sUnlock (hpc : t.pc = .sUnlock) :
    Moves i l t (next prio rounds l i t).1 (next prio rounds l i t).2 := by
  simp only [Knows, hpc] at hknows
  have hx : t.xHeld = 0 := by
    by_contra hx
    simpa [hknows] using hview.apart (by omega)
  simp only [next, hpc]
  refine ⟨?_, fun _ => rfl, hview.bounded, fun h => absurd h Bool.false_ne_true, fun h => ?_, fun h => ?_,
    .inl ⟨rfl, rfl⟩, .inl rfl, fun h => .inl ⟨h, rfl, fun h => ?_⟩, ?_⟩
  · simp [Thread.taken, hknows]
    omega
  · simp [hx] at h
  · simp [hx] at h
  · simp [hx] at h
  · split
    · trivial
    · split <;> trivial

theorem moves_xPrepare (hpc : t.pc = .xPrepare ∨ t.pc = .xClear ∨ t.pc = .xTestZero ∨
      t.pc = .xTestMinus) :
    Moves i l t (next prio rounds l i t).1 (next prio rounds l i t).2 := by
  have hdraining : t.draining = false := by rcases hpc with h | h | h | h <;> simp [Thread.draining, h]
  rcases hpc with hpc | hpc | hpc | hpc <;> simp only [Knows, hpc] at hknows <;> simp only [next, hpc]
  · refine moves_reading hview hdraining rfl rfl ?_
    have hone := weight_eq_decr_iff hknows
    have hword := hview.whole hknows hdraining
    split
    · exact hone.mp (by omega)
    · exact ⟨hknows, fun h => absurd (hone.mpr h) (by omega)⟩
  · have hx : 0 < t.xHeld := by omega
    exact ⟨rfl, hview.apart, hview.bounded, .inl, .inl, fun _ _ => .inl ⟨hx, .inl hdraining⟩, .inr hx,
      .inl rfl, fun h => absurd h Bool.false_ne_true, hx, fun _ => rfl⟩
  · have hone := weight_eq_decr_iff hknows.1
    have hword := hview.whole hknows.1 hdraining
    split
    · refine moves_reading hview hdraining rfl rfl ⟨hknows, ?_⟩
      simp [hone.mp (by omega), weight]
    · refine moves_reading hview hdraining rfl rfl ?_
      have hne : t.xHeld ≠ 1 := fun h => absurd (hone.mpr h) (by omega)
      have := hknows.1
      exact show 2 ≤ t.xHeld by omega
  · have hx : 0 < t.xHeld := by omega
    have hword := hview.whole hx hdraining
    refine moves_reading hview hdraining rfl rfl ⟨⟨hx, fun h => ?_⟩, ?_⟩
    · dsimp only at h
      omega
    · dsimp only
      split
      · rw [(weight_eq_twice_iff (c := t.xHeld)).mp (by omega)]
        simp [weight, xLockDecr]
      · have hne : t.xHeld ≠ 2 := fun h => by
          rw [weight_eq_twice_iff.mpr h] at hword
          omega
        rw [← weight_succ (by omega), Nat.sub_add_cancel hx]

theorem moves_xUnlock (hpc : t.pc = .xUnlock) :
    Moves i l t (next prio rounds l i t).1 (next prio rounds l i t).2 := by
  have hdraining : t.draining = false := by simp [Thread.draining, hpc]
  simp only [Knows, hpc] at hknows
  obtain ⟨⟨hx, hrecursive⟩, hamount⟩ := hknows
  have hbounded := hview.bounded
  simp only [next, hpc]
  refine ⟨?_, fun _ => hview.apart hx, ?_, .inl, fun _ => .inl hx,
    fun _ _ => .inl ⟨hx, .inl hdraining⟩, .inl ⟨rfl, rfl⟩, .inl rfl, fun h => .inl ⟨h, rfl, fun _ => ?_⟩,
    ?_⟩
  · simp only [Thread.taken]
    omega
  · dsimp only
    omega
  · dsimp only at h ⊢
    have hne : t.xHeld ≠ 1 := fun h1 => by simp [hrecursive h1] at h
    omega
  · split
    · split <;> trivial
    · trivial

omit hknows in
theorem moves_signal (hpc : t.pc = .signalEx ∨ t.pc = .readHighX ∨ t.pc = .signalHighX ∨
      t.pc = .readHighS ∨ t.pc = .signalHighS ∨ t.pc = .readWaiters ∨ t.pc = .resetWaiters ∨
      t.pc = .signal) :
    Moves i l t (next prio rounds l i t).1 (next prio rounds l i t).2 := by
  have hdraining : t.draining = false := by
    rcases hpc with h | h | h | h | h | h | h | h <;> simp [Thread.draining, h]
  have hsame : ∀ (l' : PrioRwLock n) (pc : Pc), l'.lockWord = l.lockWord →
      l'.recursive = l.recursive → l'.writerThread = l.writerThread → Knows l' i { t with pc := pc } →
      Moves i l t l' { t with pc := pc } := fun l' pc hword hrecursive hwriter hknows' =>
    moves_of_same hview rfl rfl hword hrecursive hwriter (fun _ hd => by simp [hdraining] at hd) hknows'
  rcases hpc with h | h | h | h | h | h | h | h <;> simp only [next, h] <;>
    exact hsame _ _ rfl rfl rfl (by (repeat' split) <;> trivial)

theorem moves_next : Moves i l t (next prio rounds l i t).1 (next prio rounds l i t).2 := by
  cases hpc : t.pc
  case idle =>
    have hdraining : t.draining = false := by simp [Thread.draining, hpc]
    simpa only [next, hpc] using moves_reading hview hdraining rfl rfl hknows
  case failed => simp only [Knows, hpc] at hknows
  case loadRecursive => exact moves_loadRecursive hview hknows hpc
  case load => exact moves_load hview hknows hpc
  case cas => exact moves_cas hview hknows hpc
  case casFree => exact moves_casFree hview hknows hpc
  case setRecursive => exact moves_setRecursive hview hknows hpc
  case testWriter => exact moves_testWriter hview hknows hpc
  case sUnlock => exact moves_sUnlock hview hknows hpc
  case xUnlock => exact moves_xUnlock hview hknows hpc
  case askWaitEx | askS | askX | spin => exact moves_ask hview hknows (by simp [hpc])
  case assertRecursive | loadWriter | casWriter => exact moves_claim hview hknows (by simp [hpc])
  case setWaitEx | waitEx | reserveEx | testEx | beginWaitEx | sleepEx | clearWaitEx =>
    exact moves_waitEx hview hknows (by simp [hpc])
  case relockTest | relockLoad | relockStore => exact moves_relock hview hknows (by simp [hpc])
  case reserve | announce | withdraw | beginWait | sleep | woken =>
    exact moves_wait hview hknows (by simp [hpc])
  case xPrepare | xClear | xTestZero | xTestMinus => exact moves_xPrepare hview hknows (by simp [hpc])
  case signalEx | readHighX | signalHighX | readHighS | signalHighS | readWaiters | resetWaiters
      | signal => exact moves_signal hview (by simp [hpc])

end Next

/-- A call begins. -/
theorem moves_call {c : Call} (hview : View l i t) (hidle : t.pc = .idle) (hmay : t.MayCall prio l c) :
    Moves i l t l (t.call prio c) := by
  have hdraining : t.draining = false := by simp [Thread.draining, hidle]
  cases c with
  | sLock high =>
    obtain ⟨⟨hs, hx⟩, -⟩ := hmay
    have hasks : Asks l { t with
        exclusive := false, high := high, pass := false, spins := 0, site := .first } :=
      ⟨rfl, hs, by simp [hx, xLockDecr], fun h => by simp [hx] at h⟩
    exact moves_reading hview hdraining rfl rfl (hasks.knows_ask rfl (by simp))
  | xLock high pass =>
    obtain ⟨⟨hs, -⟩, hbounded, hagain⟩ := hmay
    have hasks : Asks l { t with
        exclusive := true, high := high, pass := pass, spins := 0, site := .first } :=
      ⟨rfl, hs, hbounded, fun hx => ⟨rfl, hagain.resolve_left (Nat.pos_iff_ne_zero.mp hx)⟩⟩
    exact moves_reading hview hdraining rfl rfl (hasks.knows_ask rfl (by simp))
  | xLockNowait => exact moves_reading hview hdraining rfl rfl (.inl ⟨rfl, hmay⟩)
  | sUnlock => exact moves_reading hview hdraining rfl rfl hmay
  | xUnlock => exact moves_reading hview hdraining rfl rfl hmay
  | moveOwnership => exact moves_reading hview hdraining rfl rfl hmay

end Multicore.RwLock
