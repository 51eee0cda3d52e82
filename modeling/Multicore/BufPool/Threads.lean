import Mathlib.Data.Fintype.Basic
import Mathlib.Logic.Function.Basic
import Multicore.Base.Run

/-!
# The threads of buffer pool creation

`buf_pool_init` of the xtradb `buf0buf.cc` starts one thread for each buffer pool instance and joins
them; each runs `RunThread`. This is the control flow of the two functions: what is called, what the
results of the calls decide, and what `buf_pool_init_instance` and `buf_pool_free` release on the way
out of an error. What a successful initialisation writes is in `Multicore.BufPool.Init`.

The results of `pthread_create` and of the initialisations are inputs. A null `buf_pool_ptr` that is
used crashes the process, and a crashed process takes no further step.
-/

namespace Multicore.BufPool

/-- `dberr_t`, as far as buffer pool creation uses it. -/
inductive DbErr where
  | success | error
  deriving DecidableEq, Repr

/-- How a call of `buf_pool_init_instance` ends: `DB_SUCCESS`, or `DB_ERROR` after `buf_chunk_init`
returned `NULL`, or `DB_ERROR` from the statement `buf_pool_init_instance_force_oom`. -/
inductive InitOutcome where
  | success | chunkFails | forcedOom
  deriving DecidableEq, Repr

structure Calls (n : ℕ) where
  /-- What `pthread_create` returns for a thread: 0, or a positive error number. -/
  createResult : Fin n → ℕ
  initOutcome : Fin n → InitOutcome

/-- Where a thread is in `RunThread`; each constructor names the next action. -/
inductive Pc where
  | unborn
  /-- `&buf_pool_ptr[thread_index]` -/
  | index
  /-- Inside `buf_pool_init_instance`. -/
  | init
  /-- `mem_free(buf_pool)` of the error path of `buf_pool_init_instance`. -/
  | freeSlot
  /-- The call has returned, the result is tested next. -/
  | test
  /-- `buf_pool_from_array(k)` of `buf_pool_free` -/
  | loadSlot (k : ℕ)
  /-- `buf_pool_free_instance` of instance `k` -/
  | freeInstance (k : ℕ)
  /-- The argument `buf_pool_ptr` of the last `mem_free` of `buf_pool_free`. -/
  | loadArray
  | freeArray
  /-- `buf_pool_ptr = NULL` -/
  | setNull
  | done
  deriving DecidableEq, Repr

/-- Where `buf_pool_init` is; the indices are those of its two loops. -/
inductive MainPc where
  | create (i : ℕ)
  | join (i : ℕ)
  | setSizes
  | returned (result : DbErr)
  deriving DecidableEq, Repr

structure State (n : ℕ) where
  main : MainPc
  pc : Fin n → Pc
  /-- `buf_pool_ptr` is `NULL`. -/
  isNull : Bool
  crashed : Bool
  /-- How often the error path of `buf_pool_init_instance` has freed a slot of the array. -/
  slotReleases : ℕ → ℕ
  /-- How often `buf_pool_free_instance` was called for an instance. -/
  instanceReleases : ℕ → ℕ
  /-- How often `buf_pool_free` has freed the array. -/
  arrayReleases : ℕ
  /-- `buf_pool_free` released an instance whose `buf_pool_init_instance` call had not finished. -/
  earlyRelease : Bool
  /-- A thread indexed `buf_pool_ptr` when it was `NULL`. -/
  nullIndex : Bool

inductive Event (n : ℕ) where
  | main
  | thread (i : Fin n)
  deriving DecidableEq, Repr

variable {n : ℕ}

def initial (n : ℕ) : State n where
  main := .create 0
  pc := fun _ => .unborn
  isNull := false
  crashed := false
  slotReleases := fun _ => 0
  instanceReleases := fun _ => 0
  arrayReleases := 0
  earlyRelease := false
  nullIndex := false

/-- The `buf_pool_init_instance` call of a thread has finished. -/
def Pc.initialised : Pc → Prop
  | .unborn | .index | .init | .freeSlot => False
  | _ => True

instance : DecidablePred Pc.initialised
  | .unborn | .index | .init | .freeSlot => .isFalse id
  | .test | .loadSlot _ | .freeInstance _ | .loadArray | .freeArray | .setNull | .done =>
    .isTrue trivial

/-- The call for instance `k` has finished. -/
def State.Initialised (s : State n) (k : ℕ) : Prop := ∃ i : Fin n, i = k ∧ (s.pc i).initialised

instance (s : State n) (k : ℕ) : Decidable (s.Initialised k) :=
  inferInstanceAs (Decidable (∃ i : Fin n, i = k ∧ (s.pc i).initialised))

def State.setPc (s : State n) (i : Fin n) (pc : Pc) : State n :=
  { s with pc := Function.update s.pc i pc }

/-- A thread used `buf_pool_ptr` as an array when it was `NULL`: the pointer it gets is dereferenced
at once. -/
def State.indexNull (s : State n) : State n := { s with nullIndex := true, crashed := true }

/-- The loop of `buf_pool_free(i)` before iteration `k`. -/
def freeFrom (i : Fin n) (k : ℕ) : Pc := if k < i then .loadSlot k else .loadArray

/-! ### `RunThread` -/

def threadStep (calls : Calls n) (s : State n) (i : Fin n) : State n :=
  match s.pc i with
  | .unborn => s
  | .index => if s.isNull then s.indexNull else s.setPc i .init
  | .init =>
    match calls.initOutcome i with
    | .chunkFails => s.setPc i .freeSlot
    | .success | .forcedOom => s.setPc i .test
  | .freeSlot =>
    { s with slotReleases := Function.update s.slotReleases i (s.slotReleases i + 1) }.setPc i .test
  | .test => s.setPc i (if calls.initOutcome i = .success then .done else freeFrom i 0)
  | .loadSlot k => if s.isNull then s.indexNull else s.setPc i (.freeInstance k)
  | .freeInstance k =>
    { s with
      instanceReleases := Function.update s.instanceReleases k (s.instanceReleases k + 1)
      earlyRelease := s.earlyRelease || decide (¬ s.Initialised k) }.setPc i (freeFrom i (k + 1))
  -- `mem_free` reads the heap of the block in front of it, so a null argument is dereferenced too.
  | .loadArray => if s.isNull then { s with crashed := true } else s.setPc i .freeArray
  | .freeArray => { s with arrayReleases := s.arrayReleases + 1 }.setPc i .setNull
  | .setNull => { s with isNull := true }.setPc i .done
  | .done => s

/-! ### `buf_pool_init` -/

/-- The thread that a call of `pthread_create` starts: none where it reports an error. -/
def startThread (calls : Calls n) (s : State n) (i : Fin n) : State n :=
  if calls.createResult i = 0 then s.setPc i .index else s

def mainStep (calls : Calls n) (s : State n) : State n :=
  match s.main with
  | .create i =>
    if h : i < n then
      -- `if (pthread_create(...) < 0)`
      if (calls.createResult ⟨i, h⟩ : ℤ) < 0 then { s with main := .returned .error }
      else { startThread calls s ⟨i, h⟩ with main := .create (i + 1) }
    else { s with main := .join 0 }
  | .join i => if i < n then { s with main := .join (i + 1) } else { s with main := .setSizes }
  -- `buf_pool_set_sizes` reads every instance.
  | .setSizes =>
    if s.isNull ∧ 0 < n then { s with crashed := true } else { s with main := .returned .success }
  | .returned _ => s

/-- `pthread_join` waits for the thread; where none was created it has nothing to wait for. -/
def CanStep (s : State n) : MainPc → Prop
  | .create _ | .setSizes => True
  | .join i => ∀ j : Fin n, j = i → s.pc j = .unborn ∨ s.pc j = .done
  | .returned _ => False

instance decidableCanStep (s : State n) : ∀ pc, Decidable (CanStep s pc)
  | .create _ | .setSizes => inferInstanceAs (Decidable True)
  | .join i => inferInstanceAs (Decidable (∀ j : Fin n, j = i → s.pc j = .unborn ∨ s.pc j = .done))
  | .returned _ => inferInstanceAs (Decidable False)

def Enabled (s : State n) : Event n → Prop
  | .main => s.crashed = false ∧ CanStep s s.main
  | .thread i => s.crashed = false ∧ s.pc i ≠ .unborn ∧ s.pc i ≠ .done

instance decidableEnabled (s : State n) : ∀ e, Decidable (Enabled s e)
  | .main => inferInstanceAs (Decidable (_ ∧ _))
  | .thread _ => inferInstanceAs (Decidable (_ ∧ _ ∧ _))

def effect (calls : Calls n) (s : State n) : Event n → State n
  | .main => mainStep calls s
  | .thread i => threadStep calls s i

abbrev Step (calls : Calls n) : State n → Event n → State n → Prop := Fires Enabled (effect calls)

/-! ### The single-threaded loop -/

/-- The loop of the `#else` branch over the instances that are left. -/
def singleThreaded : List InitOutcome → DbErr
  | [] => .success
  | outcome :: rest => if outcome ≠ .success then .error else singleThreaded rest

/-! ### What every step keeps -/

section Lemmas

variable {calls : Calls n} {s : State n} {i j : Fin n} {pc : Pc}

@[simp] theorem setPc_pc_self : (s.setPc i pc).pc i = pc := by simp [State.setPc]

@[simp] theorem setPc_pc_of_ne (hne : j ≠ i) : (s.setPc i pc).pc j = s.pc j := by
  simp [State.setPc, hne]

theorem threadStep_pc_of_ne (hne : j ≠ i) : (threadStep calls s i).pc j = s.pc j := by
  unfold threadStep
  cases s.pc i <;> dsimp only <;> (try split) <;> simp [State.setPc, State.indexNull, hne]

@[simp] theorem threadStep_main : (threadStep calls s i).main = s.main := by
  unfold threadStep
  cases s.pc i <;> dsimp only <;> (try split) <;> rfl

/-- The threads that `buf_pool_init` has not come to are not born, and it never finds an error: no
result of `pthread_create` is negative. -/
structure Inv (s : State n) : Prop where
  unborn : ∀ i, s.main = .create i → ∀ j : Fin n, i ≤ j → s.pc j = .unborn
  noError : s.main ≠ .returned .error

theorem inv_initial : Inv (initial n) := ⟨fun _ _ _ _ => rfl, by simp [initial]⟩

theorem inv_threadStep (hinv : Inv s) (hborn : s.pc i ≠ .unborn) : Inv (threadStep calls s i) := by
  refine ⟨fun k hmain j hle => ?_, by simpa using hinv.noError⟩
  have hunborn := hinv.unborn k (by simpa using hmain) j hle
  have hne : j ≠ i := fun h => hborn (h ▸ hunborn)
  rw [threadStep_pc_of_ne hne, hunborn]

theorem mainStep_create {k : ℕ} (hmain : s.main = .create k) (hlt : k < n) :
    mainStep calls s = { startThread calls s ⟨k, hlt⟩ with main := .create (k + 1) } := by
  have hresult : ¬ (calls.createResult ⟨k, hlt⟩ : ℤ) < 0 := by omega
  simp [mainStep, hmain, hlt, hresult]

theorem startThread_pc_of_ne (hne : j ≠ i) : (startThread calls s i).pc j = s.pc j := by
  unfold startThread
  split <;> simp [hne]

theorem inv_mainStep (hinv : Inv s) : Inv (mainStep calls s) := by
  cases hmain : s.main with
  | create k =>
    by_cases hlt : k < n
    · rw [mainStep_create hmain hlt]
      refine ⟨fun k' heq j hle => ?_, by simp⟩
      obtain rfl : k + 1 = k' := by simpa using heq
      have hne : j ≠ ⟨k, hlt⟩ := fun h => by rw [h] at hle; exact absurd hle (Nat.not_succ_le_self k)
      exact (startThread_pc_of_ne hne).trans (hinv.unborn k hmain j (by omega))
    · constructor <;> simp [mainStep, hmain, hlt]
  | join k => by_cases hlt : k < n <;> constructor <;> simp [mainStep, hmain, hlt]
  | setSizes =>
    by_cases hnull : s.isNull ∧ 0 < n <;> constructor <;> simp [mainStep, hmain, hnull]
  | returned r =>
    have hsame : mainStep calls s = s := by simp [mainStep, hmain]
    rw [hsame]
    exact hinv

theorem inv_of_run {trace : List (Event n)} (hrun : Run (Step calls) (initial n) trace s) : Inv s := by
  refine hrun.invariant (P := fun _ s => Inv s) inv_initial fun _ s e s' _ hinv hstep => ?_
  obtain ⟨henabled, rfl⟩ := hstep
  cases e with
  | main => exact inv_mainStep hinv
  | thread i => exact inv_threadStep hinv henabled.2.1

end Lemmas

end Multicore.BufPool
