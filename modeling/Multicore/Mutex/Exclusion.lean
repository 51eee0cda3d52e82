import Multicore.Mutex.Model

/-!
# One holder at a time

The lock word is up exactly while some thread owns the mutex, from the test-and-set that took it to the
reset in `mutex_exit_func`; and what `mutex_own` tells a thread about itself is right.
-/

namespace Multicore.Mutex

variable {n : ℕ} {prio : Bool} {rounds : ℕ} {s s' : State n} {e : Event n} {i : Fin n}

/-- The thread has taken the lock word and not given it back. -/
def Pc.owns : Pc → Bool
  | .retryOwner | .retryWithdraw | .setOwner | .held | .exitOwner | .exitWord => true
  | _ => false

/-- The thread has written its id and not taken it back. -/
def Pc.named : Pc → Bool
  | .retryWithdraw | .held | .exitOwner => true
  | _ => false

theorem Pc.owns_of_named {pc : Pc} (h : pc.named = true) : pc.owns = true := by
  cases pc <;> simp_all [Pc.named, Pc.owns]

/-! ### What a thread does to the lock word -/

/-- What thread `i` may do to the lock word and to the id beside it when it goes from `t` to `t'`. -/
structure Moves (i : Fin n) (m : IbMutex n) (t : Thread) (m' : IbMutex n) (t' : Thread) : Prop where
  /-- It leaves the lock word alone, takes a free one, or gives its own back. -/
  word : (t'.pc.owns = t.pc.owns ∧ m'.lockWord = m.lockWord) ∨
    (m.lockWord = false ∧ t'.pc.owns = true ∧ m'.lockWord = true) ∨
    (t.pc.owns = true ∧ t'.pc.owns = false ∧ m'.lockWord = false)
  /-- It leaves the id alone, writes its own one as the owner, or takes its own one back. -/
  id : (t'.pc.named = t.pc.named ∧ m'.threadId = m.threadId) ∨
    (t.pc.owns = true ∧ t'.pc.named = true ∧ m'.threadId = some i) ∨
    (t.pc.named = true ∧ t'.pc.named = false ∧ m'.threadId = none)

theorem moves_next (m : IbMutex n) (i : Fin n) (t : Thread) :
    Moves i m t (next prio rounds m i t).1 (next prio rounds m i t).2 := by
  constructor <;> cases hpc : t.pc <;>
    simp only [next, testAndSet, IbMutex.setCellEvent, hpc] <;> repeat' split
  all_goals simp_all [Pc.owns, Pc.named]

/-- A call that begins changes nothing yet. -/
theorem moves_call {m : IbMutex n} {t t' : Thread} (howns : t'.pc.owns = t.pc.owns)
    (hnamed : t'.pc.named = t.pc.named) : Moves i m t m t' :=
  ⟨.inl ⟨howns, rfl⟩, .inl ⟨hnamed, rfl⟩⟩

/-! ### Every reachable state -/

/-- The lock word and the id say who owns the mutex. -/
structure Exclusive (s : State n) : Prop where
  word : s.mutex.lockWord = true ↔ ∃ i, (s.thread i).pc.owns = true
  unique : ∀ i j, (s.thread i).pc.owns = true → (s.thread j).pc.owns = true → i = j
  id : ∀ i, s.mutex.threadId = some i ↔ (s.thread i).pc.named = true

theorem exclusive_initial : Exclusive (initial n) := by
  constructor <;> simp [initial, Pc.owns, Pc.named]

namespace Exclusive

variable {m' : IbMutex n} {t' : Thread}

theorem not_owns (h : Exclusive s) (hfree : s.mutex.lockWord = false) (i : Fin n) :
    (s.thread i).pc.owns = false := by
  by_contra howns
  rw [h.word.mpr ⟨i, by simpa using howns⟩] at hfree
  exact Bool.noConfusion hfree

theorem unique_moves (h : Exclusive s) (hmoves : Moves i s.mutex (s.thread i) m' t') (j k : Fin n)
    (hj : (Function.update s.thread i t' j).pc.owns = true)
    (hk : (Function.update s.thread i t' k).pc.owns = true) : j = k := by
  simp only [Function.update_apply] at hj hk
  rcases hmoves.word with ⟨hsame, -⟩ | ⟨hfree, -, -⟩ | ⟨-, hnot, -⟩
  · refine h.unique j k ?_ ?_
    · split at hj <;> simp_all
    · split at hk <;> simp_all
  · have hnone := h.not_owns hfree
    split at hj <;> split at hk <;> simp_all
  · rw [if_neg fun heq => by simp [heq, hnot] at hj] at hj
    rw [if_neg fun heq => by simp [heq, hnot] at hk] at hk
    exact h.unique j k hj hk

theorem word_moves (h : Exclusive s) (hmoves : Moves i s.mutex (s.thread i) m' t') :
    m'.lockWord = true ↔ ∃ j, (Function.update s.thread i t' j).pc.owns = true := by
  simp only [Function.update_apply]
  rcases hmoves.word with ⟨hsame, hword⟩ | ⟨-, howns, hword⟩ | ⟨howns, hnot, hword⟩
  · rw [hword, h.word]
    refine exists_congr fun j => ?_
    split <;> simp_all
  · exact iff_of_true hword ⟨i, by simpa using howns⟩
  · refine iff_of_false (by simp [hword]) ?_
    rintro ⟨j, hj⟩
    split at hj
    · simp_all
    · exact ‹j ≠ i› (h.unique j i hj howns)

theorem id_moves (h : Exclusive s) (hmoves : Moves i s.mutex (s.thread i) m' t') (j : Fin n) :
    m'.threadId = some j ↔ (Function.update s.thread i t' j).pc.named = true := by
  simp only [Function.update_apply]
  -- Who is named owns the mutex, so another thread's id is never overwritten.
  have hother : j ≠ i → (s.thread i).pc.owns = true → (s.thread j).pc.named = false := by
    intro hne howns
    by_contra hnamed
    exact hne (h.unique j i (Pc.owns_of_named (by simpa using hnamed)) howns)
  rcases hmoves.id with ⟨hsame, hid⟩ | ⟨howns, hnamed, hid⟩ | ⟨hwas, hnot, hid⟩
  · rw [hid, h.id]
    split <;> simp_all
  · rw [hid, Option.some_inj, eq_comm]
    split <;> simp_all
  · rw [hid]
    have howns := Pc.owns_of_named hwas
    split <;> simp_all

theorem moves (h : Exclusive s) (hmoves : Moves i s.mutex (s.thread i) m' t') :
    Exclusive ({ s with mutex := m' }.setThread i t') :=
  ⟨h.word_moves hmoves, h.unique_moves hmoves, h.id_moves hmoves⟩

theorem step (h : Exclusive s) (hstep : Step prio rounds s e s') : Exclusive s' := by
  obtain ⟨henabled, rfl⟩ := hstep
  cases e with
  | enter i high =>
    exact h.moves (moves_call (by simp [Pc.owns, henabled.1]) (by simp [Pc.named, henabled.1]))
  | enterNowait i =>
    have hidle : (s.thread i).pc = .idle := henabled
    exact h.moves (moves_call (by simp [Pc.owns, hidle]) (by simp [Pc.named, hidle]))
  | exit i =>
    have hheld : (s.thread i).pc = .held := henabled
    exact h.moves (moves_call (by simp [Pc.owns, hheld]) (by simp [Pc.named, hheld]))
  | step i => exact h.moves (moves_next s.mutex i (s.thread i))
  | wake high => cases high <;> exact ⟨h.word, h.unique, h.id⟩

theorem mutexOwn_iff (h : Exclusive s) (i : Fin n) :
    mutexOwn s i = true ↔ (s.thread i).pc.named = true := by
  rw [mutexOwn, Bool.and_eq_true, decide_eq_true_eq, h.id]
  exact ⟨And.right, fun hnamed => ⟨h.word.mpr ⟨i, Pc.owns_of_named hnamed⟩, hnamed⟩⟩

end Exclusive

theorem exclusive_of_run {trace : List (Event n)} (hrun : Run (Step prio rounds) (initial n) trace s) :
    Exclusive s :=
  hrun.invariant (P := fun _ s => Exclusive s) exclusive_initial fun _ _ _ _ _ h hstep => h.step hstep

/-- At most one thread is between the return of `mutex_enter_func` and the reset of the lock word, and
the assertions of both functions hold: nobody who asks for the mutex is told to own it already, and
whoever leaves it is told to own it. -/
theorem mutex_excludes (trace : List (Event n)) (s : State n)
    (hrun : Run (Step prio rounds) (initial n) trace s) :
    (∀ i j, (s.thread i).pc.owns = true → (s.thread j).pc.owns = true → i = j) ∧
      (∀ i high, Enabled prio s (.enter i high) → mutexOwn s i = false) ∧
      ∀ i, Enabled prio s (.exit i) → mutexOwn s i = true := by
  have h := exclusive_of_run hrun
  refine ⟨h.unique, fun i high henabled => ?_, fun i hheld => ?_⟩
  · by_contra hown
    have hnamed := (h.mutexOwn_iff i).mp (by simpa using hown)
    simp [henabled.1, Pc.named] at hnamed
  · have hpc : (s.thread i).pc = .held := hheld
    exact (h.mutexOwn_iff i).mpr (by simp [hpc, Pc.named])

/-- The first thread gets in, the second finds the mutex taken. -/
def contended : List (Event 2) := [.enter 0 false, .step 0, .step 0, .enterNowait 1, .step 1]

theorem mutex_excludes_contended :
    mutexOwn (execute (effect false 30) (initial 2) contended) 0 = true :=
  (mutex_excludes contended.reverse _ (run_execute (by decide))).2.2 0 (by decide)

end Multicore.Mutex
