import Multicore.Mvcc.Severed

/-!
# The verbose dump

With the verbose option `main` writes, every tenth of a second, what the list of each thread holds. It
sets `g_is_verbosing`, walks every list twice, once to count and once to print the versions, and
clears the flag. The flag is what the updaters and the collector test at the top of their loops, and
nobody tells `main` that they have seen it. So the lists stand still during the dump only if nobody is
inside a loop when the flag is set.
-/

namespace Multicore.Mvcc

variable {n : ℕ}

/-! ### `main` next to the threads -/

/-- Where `main` is; `i` is the thread its inner loop has reached. -/
inductive MainPc (n : ℕ) where
  | sleep
  | testFile (i : Fin n) | readHead (i : Fin n) | readVersion (i : Fin n) | count (i : Fin n)
  | print (i : Fin n) | follow (i : Fin n)
  | clear
  deriving DecidableEq, Repr

/-- What `main` has written to the file of a thread: the size of the list in bytes, its versions and
its newest version. -/
structure Report (n : ℕ) where
  thread : Fin n
  size : ℕ
  versions : List ℕ
  newest : ℕ
  deriving DecidableEq, Repr

/-- The locals of the dump, and the reports of the current one. -/
structure Main (n : ℕ) where
  pc : MainPc n
  tmp : Option Addr
  tmp2 : Option Addr
  numSinglyList : ℕ
  version : ℕ
  /-- The size and the versions written for the current thread. -/
  size : ℕ
  printed : List ℕ
  reports : List (Report n)
  deriving Repr

structure DumpState (n : ℕ) where
  threads : State n
  main : Main n

/-- `sizeof(SinglyNode)`: two `int`s, a `uint64_t` and a pointer. -/
def sizeofSinglyNode : ℕ := 24

/-- The inner loop at index `k`. -/
def MainPc.at (k : ℕ) : MainPc n := if h : k < n then .testFile ⟨k, h⟩ else .clear

/-- One action of `main`; `isOpen` says which files could be opened. A pointer is dereferenced without
a test at `readVersion` only, and there it is a head. -/
def mainStep (isOpen : Fin n → Bool) (s : DumpState n) : DumpState n :=
  let m := s.main
  match m.pc with
  | .sleep =>
    { threads := { s.threads with isVerbosing := true }
      main := { m with pc := .at 0, reports := [] } }
  | .testFile i =>
    { s with main := { m with pc := if isOpen i then .readHead i else .at (i.val + 1) } }
  | .readHead i =>
    { s with
      main := { m with
        pc := .readVersion i
        tmp := some (s.threads.singlyList i)
        tmp2 := some (s.threads.singlyList i)
        numSinglyList := 0 } }
  | .readVersion i =>
    match m.tmp with
    | none => s
    | some a => { s with main := { m with pc := .count i, version := (s.threads.heap a).version } }
  | .count i =>
    match m.tmp with
    | none =>
      { s with
        main := { m with
          pc := .print i, size := m.numSinglyList * sizeofSinglyNode, printed := [] } }
    | some a =>
      { s with
        main := { m with numSinglyList := m.numSinglyList + 1, tmp := (s.threads.heap a).link } }
  | .print i =>
    match m.tmp2 with
    | none =>
      { s with
        main := { m with
          pc := .at (i.val + 1), reports := m.reports ++ [⟨i, m.size, m.printed, m.version⟩] } }
    | some a =>
      { s with main := { m with pc := .follow i, printed := m.printed ++ [(s.threads.heap a).version] } }
  | .follow i =>
    match m.tmp2 with
    | none => s
    | some a => { s with main := { m with pc := .print i, tmp2 := (s.threads.heap a).link } }
  | .clear =>
    { threads := { s.threads with isVerbosing := false }, main := { m with pc := .sleep } }

/-- The node `main` dereferences next. -/
def Main.dereferenced (m : Main n) : Option Addr :=
  match m.pc with
  | .readVersion _ | .count _ => m.tmp
  | .print _ | .follow _ => m.tmp2
  | _ => none

inductive DumpEvent (n : ℕ) where
  | thread (e : Event n)
  | main
  | stop
  deriving DecidableEq, Repr

/-- The flags are written by `main` alone. -/
def Event.ofThread : Event n → Bool
  | .setVerbosing _ | .stopRun => false
  | _ => true

def DumpEnabled (s : DumpState n) : DumpEvent n → Prop
  | .thread e => e.ofThread = true ∧ Enabled s.threads e
  | .main => s.main.pc = .sleep → s.threads.couldThreadRun = true
  | .stop => s.main.pc = .sleep ∧ s.threads.couldThreadRun = true

instance decidableDumpEnabled (s : DumpState n) (e : DumpEvent n) : Decidable (DumpEnabled s e) :=
  match e with
  | .thread e => inferInstanceAs (Decidable (e.ofThread = true ∧ Enabled s.threads e))
  | .main => inferInstanceAs (Decidable (s.main.pc = .sleep → s.threads.couldThreadRun = true))
  | .stop => inferInstanceAs (Decidable (s.main.pc = .sleep ∧ s.threads.couldThreadRun = true))

def dumpEffect (isOpen : Fin n → Bool) (s : DumpState n) : DumpEvent n → DumpState n
  | .thread e => { s with threads := effect s.threads e }
  | .main => mainStep isOpen s
  | .stop => { s with threads := { s.threads with couldThreadRun := false } }

abbrev DumpStep (isOpen : Fin n → Bool) : DumpState n → DumpEvent n → DumpState n → Prop :=
  Fires DumpEnabled (dumpEffect isOpen)

def dumpInitial (a b : Fin n → BitVec 32) : DumpState n :=
  { threads := initial a b
    main := { pc := .sleep, tmp := none, tmp2 := none, numSinglyList := 0, version := 0, size := 0
              printed := [], reports := [] } }

variable {isOpen : Fin n → Bool} {s s' : DumpState n} {d : DumpEvent n}

theorem MainPc.at_cases (k : ℕ) :
    (∃ i, (MainPc.at k : MainPc n) = .testFile i) ∨ (MainPc.at k : MainPc n) = .clear := by
  unfold MainPc.at
  split
  · exact .inl ⟨_, rfl⟩
  · exact .inr rfl

theorem MainPc.at_ne_sleep (k : ℕ) : (MainPc.at k : MainPc n) ≠ .sleep := by
  rcases MainPc.at_cases (n := n) k with ⟨i, hi⟩ | hi <;> simp [hi]

/-! ### The flag, and the runs of the threads -/

/-- The flag is set while `main` is dumping, and `main` stops the threads only afterwards. -/
structure FlagOk (s : DumpState n) : Prop where
  verbosing : s.threads.isVerbosing = true ↔ s.main.pc ≠ .sleep
  running : s.main.pc ≠ .sleep → s.threads.couldThreadRun = true

theorem flags_effect {t : State n} {e : Event n} (he : e.ofThread = true) :
    (effect t e).isVerbosing = t.isVerbosing ∧ (effect t e).couldThreadRun = t.couldThreadRun := by
  cases e with
  | setVerbosing value => cases he
  | stopRun => cases he
  | pick i p =>
    obtain ⟨u, heq⟩ := pick_frame t i p
    rw [heq]
    exact ⟨rfl, rfl⟩
  | search i =>
    obtain ⟨u, heq⟩ := searchStep_frame t i
    rw [effect, heq]
    exact ⟨rfl, rfl⟩
  | collect =>
    obtain ⟨link, freed, c, heq⟩ := collectStep_frame t
    rw [effect, heq]
    exact ⟨rfl, rfl⟩
  | _ => exact ⟨rfl, rfl⟩

/-- Apart from setting and clearing the flag, `main` only reads what the threads share. -/
theorem mainStep_threads (hsleep : s.main.pc ≠ .sleep) (hclear : s.main.pc ≠ .clear) :
    (mainStep isOpen s).threads = s.threads ∧ (mainStep isOpen s).main.pc ≠ .sleep := by
  cases hpc : s.main.pc with
  | sleep => exact absurd hpc hsleep
  | clear => exact absurd hpc hclear
  | testFile i =>
    simp only [mainStep, hpc]
    refine ⟨trivial, ?_⟩
    split
    · simp
    · exact MainPc.at_ne_sleep _
  | readHead i => simp [mainStep, hpc]
  | readVersion i => cases htmp : s.main.tmp <;> simp [mainStep, hpc, htmp]
  | count i => cases htmp : s.main.tmp <;> simp [mainStep, hpc, htmp]
  | print i => cases htmp : s.main.tmp2 <;> simp [mainStep, hpc, htmp, MainPc.at_ne_sleep]
  | follow i => cases htmp : s.main.tmp2 <;> simp [mainStep, hpc, htmp]

theorem FlagOk.step (h : FlagOk s) (hstep : DumpStep isOpen s d s') : FlagOk s' := by
  obtain ⟨henabled, rfl⟩ := hstep
  cases d with
  | thread e =>
    obtain ⟨hverbosing, hrunning⟩ := flags_effect (t := s.threads) henabled.1
    exact ⟨by simpa only [dumpEffect, hverbosing] using h.verbosing,
      by simpa only [dumpEffect, hrunning] using h.running⟩
  | stop => exact ⟨h.verbosing, fun hpc => absurd henabled.1 hpc⟩
  | main =>
    by_cases hsleep : s.main.pc = .sleep
    · simp only [dumpEffect, mainStep, hsleep]
      exact ⟨iff_of_true rfl (MainPc.at_ne_sleep 0), fun _ => henabled hsleep⟩
    by_cases hclear : s.main.pc = .clear
    · simp only [dumpEffect, mainStep, hclear]
      exact ⟨iff_of_false (by simp) (by simp), fun hpc => absurd rfl hpc⟩
    · obtain ⟨hthreads, hpc⟩ := @mainStep_threads n isOpen s hsleep hclear
      rw [dumpEffect]
      refine ⟨?_, fun _ => ?_⟩ <;> rw [hthreads]
      · exact iff_of_true (h.verbosing.mpr hsleep) hpc
      · exact h.running hsleep

theorem flagOk_of_run {a b : Fin n → BitVec 32} {trace : List (DumpEvent n)}
    (hrun : Run (DumpStep isOpen) (dumpInitial a b) trace s) : FlagOk s :=
  hrun.invariant (P := fun _ s => FlagOk s)
    ⟨iff_of_false (by simp [dumpInitial, initial]) (by simp [dumpInitial]), fun hpc => absurd rfl hpc⟩
    fun _ _ _ _ _ h hstep => h.step hstep

/-- What the threads do next to a dumping `main` is a run of the threads. -/
theorem threads_of_run {a b : Fin n → BitVec 32} {trace : List (DumpEvent n)}
    (hrun : Run (DumpStep isOpen) (dumpInitial a b) trace s) :
    ∃ trace', Run Step (initial a b) trace' s.threads := by
  refine hrun.simulate Step DumpState.threads fun trace s d s' hrun hstep => ?_
  have hflag := flagOk_of_run hrun
  obtain ⟨henabled, rfl⟩ := hstep
  cases d with
  | thread e => exact .inl ⟨e, henabled.2, rfl⟩
  | stop =>
    refine .inl ⟨.stopRun, ⟨henabled.2, ?_⟩, rfl⟩
    rw [← Bool.not_eq_true, hflag.verbosing, not_not]
    exact henabled.1
  | main =>
    by_cases hsleep : s.main.pc = .sleep
    · refine .inl ⟨.setVerbosing true, henabled hsleep, ?_⟩
      simp only [dumpEffect, mainStep, hsleep, effect]
    by_cases hclear : s.main.pc = .clear
    · refine .inl ⟨.setVerbosing false, hflag.running hsleep, ?_⟩
      simp only [dumpEffect, mainStep, hclear, effect]
    · exact .inr (mainStep_threads hsleep hclear).1

end Multicore.Mvcc
