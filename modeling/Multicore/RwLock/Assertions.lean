import Multicore.RwLock.Wakeup

/-!
# The assertions of the lock hold

The functions assert, at many places, what the lock word and the other fields must be there: `ut_a` in
every build and `ut_ad` in the debug build. `Asserts` collects those about the fields of the lock, by the
place of the thread, and they hold in every reachable state. The assertions about the lists of debug
information and about the arguments of a call are not among them: the latter are promises of the callers
(`Thread.MayCall`).
-/

namespace Multicore.RwLock

variable {n : ℕ} {prio : Bool} {rounds : ℕ} {i : Fin n} {s : State n}

/-- What the assertions say where the thread is, and `rw_lock_validate`. -/
def Asserts (l : PrioRwLock n) (t : Thread n) : Prop :=
  l.Valid ∧
    match t.pc with
    | .failed => False
    | .assertRecursive => l.recursive = false
    | .loadWriter => t.site = .moveOwnership → l.getWriter = .ex
    | .casWriter => l.writerThread = t.localThread
    | .setWaitEx | .waitEx => l.lockWord ≤ 0
    | .relockStore => t.localLockWord < 0
    | .sUnlock => -xLockDecr < l.lockWord ∧ l.lockWord ≠ 0 ∧ l.lockWord < xLockDecr
    | .xPrepare => l.lockWord = 0 ∨ l.lockWord ≤ -xLockDecr
    -- the last branch of `rw_lock_x_prepare_unlock`, read when the amount has been chosen
    | .xUnlock => (t.amount = 1 → l.lockWord < -xLockDecr) ∧ l.highPriorityWaitExWaiter = false
    | _ => True

namespace Guarded

theorem valid (h : Guarded s) (hn : (n : ℤ) < xLockDecr) : s.lock.Valid := by
  have hle : s.readers ≤ n := count_le_card.trans_eq (Fintype.card_fin n)
  unfold PrioRwLock.Valid
  rcases h.word_cases with ⟨-, hword⟩ | ⟨k, hx, -, ⟨-, hword⟩ | ⟨-, hword⟩⟩
  · omega
  · have hbounded := h.bounded k
    have hex := word_of_weight hx hword
    omega
  · omega

/-- The lock word of a writer past the wait for the readers. -/
theorem word_of_owner (h : Guarded s) (hx : 0 < (s.thread i).xHeld)
    (hdraining : (s.thread i).draining = false) :
    ((s.thread i).xHeld = 1 ∧ s.lock.lockWord = 0) ∨
      (2 ≤ (s.thread i).xHeld ∧ s.lock.lockWord = -xLockDecr - ((s.thread i).xHeld - 2)) := by
  have hword := h.word_of_whole hx hdraining
  have := word_of_weight hx (eq_sub_of_add_eq hword)
  omega

theorem getWriter_of_owner (h : Guarded s) (hx : 0 < (s.thread i).xHeld)
    (hdraining : (s.thread i).draining = false) : s.lock.getWriter = .ex := by
  have hword := h.word_of_owner hx hdraining
  have hdecr : 0 < xLockDecr := by decide
  unfold PrioRwLock.getWriter
  rw [if_neg (by omega), if_pos (by omega)]

theorem word_of_reader (h : Guarded s) (hn : (n : ℤ) < xLockDecr) (hs : (s.thread i).sHeld = true) :
    -xLockDecr < s.lock.lockWord ∧ s.lock.lockWord ≠ 0 ∧ s.lock.lockWord < xLockDecr := by
  have hpos : 0 < s.readers := count_pos_iff.mpr ⟨i, hs⟩
  have hle : s.readers ≤ n := count_le_card.trans_eq (Fintype.card_fin n)
  rcases h.word_cases with ⟨-, hword⟩ | ⟨k, -, -, ⟨hreaders, -⟩ | ⟨-, hword⟩⟩ <;> omega

end Guarded

/-- A release gives back 1 only from the third lock on. -/
theorem three_le_of_weight {c : ℕ} (hc : 0 < c) (h : weight (c - 1) + 1 = weight c) : 3 ≤ c := by
  match c with
  | 1 | 2 => simp [weight, xLockDecr] at h
  | c + 3 => omega

/-- A writer that releases has seen the flag of the next writer cleared. -/
theorem Attended.flag_of_owner (h : Attended prio s) (hx : 0 < (s.thread i).xHeld)
    (hflags : (s.thread i).flags = false) : s.lock.highPriorityWaitExWaiter = false := by
  by_contra hflag
  obtain ⟨k, hk⟩ := h.flag (by simpa using hflag)
  have heq := h.guarded.unique k i (by have := (h.xHeld_of_flags hk).2; omega) hx
  simp [heq, hflags] at hk

theorem Attended.asserts (hn : (n : ℤ) < xLockDecr) (h : Attended prio s) (i : Fin n) :
    Asserts s.lock (s.thread i) := by
  refine ⟨h.guarded.valid hn, ?_⟩
  have hknows := h.guarded.knows i
  cases hpc : (s.thread i).pc <;> simp only [Knows, hpc] at hknows ⊢
  case assertRecursive => exact hknows.2.2
  case loadWriter =>
    intro hsite
    simp only [Claims, hsite, if_true] at hknows
    exact h.guarded.getWriter_of_owner hknows (by simp [Thread.draining, hpc, hsite, Site.waits])
  case casWriter => exact hknows.2.symm
  case setWaitEx | waitEx => exact h.guarded.lockWord_nonpos (hknows ▸ Nat.one_pos)
  case relockStore =>
    obtain ⟨hx, hlocal⟩ := hknows
    have hword := word_of_weight (c := (s.thread i).xHeld + 1) (by omega) (eq_sub_of_add_eq hlocal)
    have hdecr : 0 < xLockDecr := by decide
    omega
  case sUnlock => exact h.guarded.word_of_reader hn hknows
  case xPrepare =>
    have hword := h.guarded.word_of_owner hknows (by simp [Thread.draining, hpc])
    omega
  case xUnlock =>
    obtain ⟨⟨hx, -⟩, hamount⟩ := hknows
    refine ⟨fun hone => ?_, h.flag_of_owner hx (by simp [Thread.flags, hpc, Pc.flags])⟩
    have hword := h.guarded.word_of_owner hx (by simp [Thread.draining, hpc])
    have hthree := three_le_of_weight hx (hone ▸ hamount)
    omega

/-- In every reachable state every thread finds its assertion true, and the lock that nobody holds is
the one that `rw_lock_free_func` asserts. -/
theorem assertions_hold (hn : (n : ℤ) < xLockDecr) (trace : List (Event n)) (s : State n)
    (hrun : Run (Step prio rounds) (initial n) trace s) :
    (∀ i, Asserts s.lock (s.thread i)) ∧
      ((∀ i, (s.thread i).sHeld = false ∧ (s.thread i).xHeld = 0) → s.lock.lockWord = xLockDecr) := by
  have h := attended_of_run hn hrun
  refine ⟨h.asserts hn, fun hfree => ?_⟩
  have hword := h.guarded.word
  simpa [Thread.taken, hfree, weight] using hword

/-- The first thread reads and is about to leave, while the second one waits for it with high priority. -/
def lastReader : List (Event 2) :=
  .call 0 (.sLock false) :: List.replicate 5 (.step 0) ++
    .call 1 (.xLock true false) :: List.replicate 9 (.step 1) ++ [.call 0 .sUnlock]

theorem assertions_hold_lastReader :
    let s := execute (effect true 0) (initial 2) lastReader
    (s.thread 0).pc = .sUnlock ∧ -xLockDecr < s.lock.lockWord ∧ s.lock.lockWord ≠ 0 ∧
      s.lock.lockWord < xLockDecr := by
  intro s
  have hall : AllEnabled (Enabled true) (effect true 0) (initial 2) lastReader := by decide
  have hpc : (s.thread 0).pc = .sUnlock := by decide
  have hasserts := ((assertions_hold (by decide) lastReader.reverse s (run_execute hall)).1 0).2
  rw [hpc] at hasserts
  exact ⟨hpc, hasserts⟩

end Multicore.RwLock
