import Mathlib.Data.Fin.VecNotation
import Multicore.BufPool.Threads

/-!
# Clean-up after a failed initialisation

`buf_pool_free(i)` was written for the sequential loop: it releases the instances below `i` and the
array, on the assumption that these instances are ready and that nobody else is at work. A thread
whose initialisation fails calls it while the other threads are anywhere. If two initialisations fail
both threads release the same instances and the array; if a thread has not yet taken the address of
its instance it takes it from a null pointer; and the error path of `buf_pool_init_instance` has
already freed the slot, which for instance 0 is the array.

Nothing of this happens where the call finds what the sequential loop would have left behind.
-/

namespace Multicore.BufPool

variable {n : ℕ} {calls : Calls n} {s : State n} {i j c : Fin n}

/-- Every instance and the array are released once at most, no instance before its initialisation has
finished, and no thread has indexed the null pointer. The slot of instance 0 is the array. -/
structure ReleasedOnce (s : State n) : Prop where
  array : s.slotReleases 0 + s.arrayReleases ≤ 1
  slot : ∀ k, s.slotReleases k + s.instanceReleases k ≤ 1
  early : s.earlyRelease = false
  null : s.nullIndex = false

/-- When thread `i` goes into `buf_pool_free(i)`, no other initialisation fails, the threads that are
started have taken the address of their instance, those below `i` are ready, and the error path has
not freed the array. -/
def Orderly (calls : Calls n) (s : State n) : Event n → Prop
  | .main => True
  | .thread i => s.pc i = .test → calls.initOutcome i ≠ .success →
      (∀ j ≠ i, calls.initOutcome j = .success ∧ s.pc j ≠ .index ∧
        (s.pc j = .unborn → calls.createResult j ≠ 0)) ∧
      (∀ j < i, (s.pc j).initialised) ∧ ((i : ℕ) = 0 → calls.initOutcome i ≠ .chunkFails)

instance decidableOrderly (calls : Calls n) (s : State n) : ∀ e, Decidable (Orderly calls s e)
  | .main => inferInstanceAs (Decidable True)
  | .thread i => inferInstanceAs (Decidable (s.pc i = .test → calls.initOutcome i ≠ .success →
      (∀ j ≠ i, calls.initOutcome j = .success ∧ s.pc j ≠ .index ∧
        (s.pc j = .unborn → calls.createResult j ≠ 0)) ∧
      (∀ j < i, (s.pc j).initialised) ∧ ((i : ℕ) = 0 → calls.initOutcome i ≠ .chunkFails)))

/-! ### The slots the error path frees -/

/-- A thread frees its slot inside its own initialisation, when that fails for want of a chunk. -/
structure Slots (calls : Calls n) (s : State n) : Prop where
  le : ∀ i : Fin n, s.slotReleases i ≤ if (s.pc i).initialised then 1 else 0
  fails : ∀ i : Fin n, s.pc i = .freeSlot ∨ s.slotReleases i ≠ 0 → calls.initOutcome i = .chunkFails
  outside : ∀ k, n ≤ k → s.slotReleases k = 0

theorem slots_initial : Slots calls (initial n) := by
  constructor <;> simp [initial]

theorem Slots.le_one (hslots : Slots calls s) (k : ℕ) : s.slotReleases k ≤ 1 := by
  by_cases hlt : k < n
  · have hle := hslots.le ⟨k, hlt⟩
    split at hle <;> dsimp only at hle <;> omega
  · simp [hslots.outside k (by omega)]

theorem Slots.eq_zero (hslots : Slots calls s) {k : ℕ}
    (hok : ∀ i : Fin n, i = k → calls.initOutcome i ≠ .chunkFails) : s.slotReleases k = 0 := by
  by_cases hlt : k < n
  · by_contra hne
    exact hok ⟨k, hlt⟩ rfl (hslots.fails ⟨k, hlt⟩ (.inr hne))
  · exact hslots.outside k (by omega)

/-- Where a step leaves its thread; at a crash it stays. -/
def nextPc (calls : Calls n) (isNull : Bool) (i : Fin n) : Pc → Pc
  | .unborn => .unborn
  | .index => if isNull then .index else .init
  | .init => if calls.initOutcome i = .chunkFails then .freeSlot else .test
  | .freeSlot => .test
  | .test => if calls.initOutcome i = .success then .done else freeFrom i 0
  | .loadSlot k => if isNull then .loadSlot k else .freeInstance k
  | .freeInstance k => freeFrom i (k + 1)
  | .loadArray => if isNull then .loadArray else .freeArray
  | .freeArray => .setNull
  | .setNull | .done => .done

theorem threadStep_pc_self :
    (threadStep calls s i).pc i = nextPc calls s.isNull i (s.pc i) := by
  unfold threadStep nextPc
  cases hpc : s.pc i with
  | init => cases hout : calls.initOutcome i <;> simp
  | index | loadSlot | loadArray => cases s.isNull <;> simp [State.indexNull, hpc]
  | unborn | done => exact hpc
  | _ => simp

theorem threadStep_slotReleases :
    (threadStep calls s i).slotReleases =
      if s.pc i = .freeSlot then Function.update s.slotReleases i (s.slotReleases i + 1)
      else s.slotReleases := by
  unfold threadStep
  cases s.pc i with
  | init => cases calls.initOutcome i <;> simp [State.setPc]
  | index | loadSlot | loadArray => cases s.isNull <;> simp [State.setPc, State.indexNull]
  | _ => simp [State.setPc]

theorem initialised_freeFrom (k : ℕ) : (freeFrom i k).initialised := by
  unfold freeFrom
  split <;> trivial

theorem freeFrom_ne_freeSlot (k : ℕ) : freeFrom i k ≠ .freeSlot := by
  unfold freeFrom
  split <;> simp

/-- A finished initialisation stays finished. -/
theorem initialised_nextPc {isNull : Bool} {pc : Pc} (hinit : pc.initialised) :
    (nextPc calls isNull i pc).initialised := by
  unfold nextPc
  cases pc with
  | unborn | index | init | freeSlot => exact hinit.elim
  | test => dsimp only; split; exacts [trivial, initialised_freeFrom 0]
  | loadSlot | loadArray => dsimp only; split <;> trivial
  | freeInstance k => exact initialised_freeFrom (k + 1)
  | freeArray | setNull | done => trivial

theorem nextPc_eq_freeSlot {isNull : Bool} {pc : Pc} (hnext : nextPc calls isNull i pc = .freeSlot) :
    calls.initOutcome i = .chunkFails := by
  unfold nextPc at hnext
  cases pc with
  | init =>
    dsimp only at hnext
    split at hnext
    · assumption
    · cases hnext
  | test =>
    dsimp only at hnext
    split at hnext
    · cases hnext
    · exact absurd hnext (freeFrom_ne_freeSlot 0)
  | index | loadSlot | loadArray => dsimp only at hnext; split at hnext <;> cases hnext
  | freeInstance k => exact absurd hnext (freeFrom_ne_freeSlot (k + 1))
  | unborn | freeSlot | freeArray | setNull | done => cases hnext

theorem slots_threadStep (hslots : Slots calls s) : Slots calls (threadStep calls s i) := by
  refine ⟨fun j => ?_, fun j hj => ?_, fun k hk => ?_⟩
  · have hle := hslots.le j
    rw [threadStep_slotReleases]
    by_cases hne : j = i
    · subst hne
      rw [threadStep_pc_self]
      by_cases hpc : s.pc j = .freeSlot
      · simpa [hpc, nextPc, Pc.initialised] using hle
      · rw [if_neg hpc]
        split at hle
        · rwa [if_pos (initialised_nextPc ‹_›)]
        · exact hle.trans (Nat.zero_le _)
    · rw [threadStep_pc_of_ne hne]
      split <;> simpa [Fin.val_ne_of_ne hne] using hle
  · rw [threadStep_slotReleases] at hj
    by_cases hne : j = i
    · subst hne
      rw [threadStep_pc_self] at hj
      by_cases hpc : s.pc j = .freeSlot
      · exact hslots.fails j (.inl hpc)
      · rw [if_neg hpc] at hj
        exact hj.elim nextPc_eq_freeSlot fun h => hslots.fails j (.inr h)
    · rw [threadStep_pc_of_ne hne] at hj
      refine hslots.fails j (hj.imp_right fun h => ?_)
      split at h <;> simpa [Fin.val_ne_of_ne hne] using h
  · rw [threadStep_slotReleases]
    have hne : k ≠ i := by omega
    split <;> simpa [hne] using hslots.outside k hk

/-- A step of `buf_pool_init` changes no more of the threads than that one may be born. -/
theorem mainStep_frame (calls : Calls n) (hinv : Inv s) :
    ∃ main crashed pc, mainStep calls s = { s with main := main, crashed := crashed, pc := pc } ∧
      ∀ j, pc j = s.pc j ∨ s.pc j = .unborn ∧ calls.createResult j = 0 ∧ pc j = .index := by
  cases hmain : s.main with
  | create k =>
    by_cases hlt : k < n
    · rw [mainStep_create hmain hlt]
      by_cases hcreate : calls.createResult ⟨k, hlt⟩ = 0
      · simp only [startThread, hcreate, if_true]
        refine ⟨_, _, _, rfl, fun j => ?_⟩
        by_cases hne : j = ⟨k, hlt⟩
        · subst hne
          exact .inr ⟨hinv.unborn k hmain _ le_rfl, hcreate, setPc_pc_self⟩
        · exact .inl (setPc_pc_of_ne hne)
      · simp only [startThread, hcreate, if_false]
        exact ⟨_, _, _, rfl, fun _ => .inl rfl⟩
    · simp only [mainStep, hmain, hlt, dite_false]
      exact ⟨_, _, _, rfl, fun _ => .inl rfl⟩
  | join k =>
    simp only [mainStep, hmain]
    split <;> exact ⟨_, _, _, rfl, fun _ => .inl rfl⟩
  | setSizes =>
    simp only [mainStep, hmain]
    split <;> exact ⟨_, _, _, rfl, fun _ => .inl rfl⟩
  | returned r =>
    simp only [mainStep, hmain]
    exact ⟨s.main, s.crashed, s.pc, rfl, fun _ => .inl rfl⟩

theorem slots_mainStep (hinv : Inv s) (hslots : Slots calls s) : Slots calls (mainStep calls s) := by
  obtain ⟨main, crashed, pc, hstep, hpc⟩ := mainStep_frame calls hinv
  rw [hstep]
  refine ⟨fun j => ?_, fun j hj => ?_, hslots.outside⟩
  · have hle := hslots.le j
    rcases hpc j with hsame | ⟨hold, -, hnew⟩
    · simpa [hsame] using hle
    · simpa [hold, hnew, Pc.initialised] using hle
  · apply hslots.fails j
    rcases hpc j with hsame | ⟨-, -, hnew⟩
    · simpa [hsame] using hj
    · exact .inr (by simpa [hnew] using hj)

theorem slots_of_run {trace : List (Event n)} (hrun : Run (Step calls) (initial n) trace s) :
    Slots calls s := by
  refine hrun.invariant (P := fun _ s => Slots calls s) slots_initial fun _ s e s' hrun hslots hstep => ?_
  rw [hstep.2]
  cases e with
  | main => exact slots_mainStep (inv_of_run hrun) hslots
  | thread i => exact slots_threadStep hslots

/-! ### Before a clean-up and during one -/

/-- Nobody has called `buf_pool_free`. -/
structure NoCleanup (calls : Calls n) (s : State n) : Prop where
  pc : ∀ i, ¬ (s.pc i).initialised ∨ s.pc i = .test ∨
    s.pc i = .done ∧ calls.initOutcome i = .success
  notNull : s.isNull = false
  instances : ∀ k, s.instanceReleases k = 0
  array : s.arrayReleases = 0
  early : s.earlyRelease = false
  null : s.nullIndex = false

/-- How many instances `buf_pool_free(c)` has released. -/
def Pc.released (c : Fin n) : Pc → ℕ
  | .loadSlot k | .freeInstance k => k
  | _ => c

/-- Inside `buf_pool_free(c)` or after it. -/
def Pc.cleaning (c : Fin n) : Pc → Prop
  | .loadSlot k | .freeInstance k => k < c
  | .loadArray | .freeArray | .setNull | .done => True
  | _ => False

def Pc.arrayFreed : Pc → ℕ
  | .setNull | .done => 1
  | _ => 0

/-- Thread `c` alone has called `buf_pool_free`. -/
structure Cleanup (calls : Calls n) (s : State n) (c : Fin n) : Prop where
  others : ∀ j ≠ c, calls.initOutcome j = .success ∧
    (s.pc j = .unborn ∧ calls.createResult j ≠ 0 ∨ s.pc j = .init ∨ s.pc j = .test ∨ s.pc j = .done)
  lower : ∀ j < c, (s.pc j).initialised
  notArray : (c : ℕ) = 0 → calls.initOutcome c ≠ .chunkFails
  cleaning : (s.pc c).cleaning c
  isNull : s.isNull = true ↔ s.pc c = .done
  instances : ∀ k, s.instanceReleases k = if k < (s.pc c).released c then 1 else 0
  array : s.arrayReleases = (s.pc c).arrayFreed
  early : s.earlyRelease = false
  null : s.nullIndex = false

theorem released_le (hcleaning : (s.pc c).cleaning c) : (s.pc c).released c ≤ c := by
  revert hcleaning
  cases s.pc c with
  | loadSlot k => exact fun h => Nat.le_of_lt h
  | freeInstance k => exact fun h => Nat.le_of_lt h
  | _ => intro _; exact le_rfl

theorem NoCleanup.releasedOnce (hslots : Slots calls s) (hno : NoCleanup calls s) : ReleasedOnce s where
  array := by simpa [hno.array] using hslots.le_one 0
  slot k := by simpa [hno.instances k] using hslots.le_one k
  early := hno.early
  null := hno.null

theorem Cleanup.releasedOnce (hslots : Slots calls s) (hclean : Cleanup calls s c) : ReleasedOnce s where
  array := by
    have hzero : s.slotReleases 0 = 0 := by
      refine hslots.eq_zero fun i hi => ?_
      by_cases hne : i = c
      · subst hne
        exact hclean.notArray hi
      · simp [(hclean.others i hne).1]
    have hfreed : (s.pc c).arrayFreed ≤ 1 := by cases s.pc c <;> simp [Pc.arrayFreed]
    rw [hzero, hclean.array]
    omega
  slot k := by
    have hle := hslots.le_one k
    rw [hclean.instances k]
    split
    · -- Only instances below the caller's are released, and their initialisation succeeds.
      have hlt : k < c := lt_of_lt_of_le ‹_› (released_le hclean.cleaning)
      have hzero : s.slotReleases k = 0 := by
        refine hslots.eq_zero fun i hi => ?_
        have hne : i ≠ c := fun h => by rw [h] at hi; omega
        simp [(hclean.others i hne).1]
      omega
    · omega
  early := hclean.early
  null := hclean.null

theorem noCleanup_initial : NoCleanup calls (initial n) := by
  refine ⟨fun i => .inl ?_, rfl, fun _ => rfl, rfl, rfl, rfl⟩
  simp [initial, Pc.initialised]

theorem noCleanup_mainStep (hinv : Inv s) (hno : NoCleanup calls s) :
    NoCleanup calls (mainStep calls s) := by
  obtain ⟨main, crashed, pc, hstep, hpc⟩ := mainStep_frame calls hinv
  rw [hstep]
  refine ⟨fun j => ?_, hno.notNull, hno.instances, hno.array, hno.early, hno.null⟩
  rcases hpc j with hsame | ⟨-, -, hnew⟩
  · simpa [hsame] using hno.pc j
  · exact .inl (by simp [hnew, Pc.initialised])

theorem cleanup_mainStep (hinv : Inv s) (hclean : Cleanup calls s c) :
    Cleanup calls (mainStep calls s) c := by
  obtain ⟨main, crashed, pc, hstep, hpc⟩ := mainStep_frame calls hinv
  -- The threads that are still to be started have been started already.
  have hsame : pc = s.pc := by
    funext j
    refine (hpc j).resolve_right ?_
    rintro ⟨hunborn, hcreate, -⟩
    by_cases hne : j = c
    · subst hne
      have hcleaning := hclean.cleaning
      rw [hunborn] at hcleaning
      exact hcleaning
    · have hother := (hclean.others j hne).2
      simp [hunborn, hcreate] at hother
  rw [hstep, hsame]
  exact ⟨hclean.others, hclean.lower, hclean.notArray, hclean.cleaning, hclean.isNull,
    hclean.instances, hclean.array, hclean.early, hclean.null⟩

/-! ### The thread that cleans up -/

theorem cleaning_freeFrom (k : ℕ) : (freeFrom c k).cleaning c := by
  unfold freeFrom
  split
  · assumption
  · trivial

theorem released_freeFrom {k : ℕ} (hle : k ≤ c) : (freeFrom c k).released c = k := by
  unfold freeFrom
  split
  · rfl
  · change (c : ℕ) = k
    omega

theorem arrayFreed_freeFrom (k : ℕ) : (freeFrom c k).arrayFreed = 0 := by
  unfold freeFrom
  split <;> rfl

theorem freeFrom_ne_done (k : ℕ) : freeFrom c k ≠ .done := by
  unfold freeFrom
  split <;> simp

/-- A step of `c` leaves the others where they are. -/
theorem Cleanup.advance {s' : State n} {pc : Pc} (hclean : Cleanup calls s c)
    (hpc : s'.pc = Function.update s.pc c pc) (hcleaning : pc.cleaning c)
    (hnull : s'.isNull = true ↔ pc = .done)
    (hinstances : ∀ k, s'.instanceReleases k = if k < pc.released c then 1 else 0)
    (harray : s'.arrayReleases = pc.arrayFreed) (hearly : s'.earlyRelease = false)
    (hindex : s'.nullIndex = false) : Cleanup calls s' c := by
  have hself : s'.pc c = pc := by rw [hpc, Function.update_self]
  have hothers : ∀ j ≠ c, s'.pc j = s.pc j := fun j hne => by rw [hpc, Function.update_of_ne hne]
  refine ⟨fun j hne => ?_, fun j hlt => ?_, hclean.notArray, ?_, ?_, ?_, ?_, hearly, hindex⟩
  · rw [hothers j hne]
    exact hclean.others j hne
  · rw [hothers j hlt.ne]
    exact hclean.lower j hlt
  all_goals rwa [hself]

theorem cleanup_threadStep_self (hdone : s.pc c ≠ .done) (hclean : Cleanup calls s c) :
    Cleanup calls (threadStep calls s c) c := by
  have hcleaning := hclean.cleaning
  have hinstances := hclean.instances
  have harray := hclean.array
  have hnull : s.isNull = false := by
    have hiff := hclean.isNull
    simpa [hdone] using hiff
  cases hpc : s.pc c with
  | unborn | index | init | freeSlot | test => rw [hpc] at hcleaning; exact hcleaning.elim
  | done => exact absurd hpc hdone
  | loadSlot k =>
    rw [hpc] at hcleaning hinstances harray
    have hstep : threadStep calls s c = s.setPc c (.freeInstance k) := by
      simp [threadStep, hpc, hnull]
    rw [hstep]
    exact hclean.advance rfl hcleaning (by simp [State.setPc, hnull]) hinstances harray hclean.early
      hclean.null
  | freeInstance k =>
    rw [hpc] at hcleaning hinstances harray
    have hlt : k < c := hcleaning
    have hready : s.Initialised k := ⟨⟨k, by omega⟩, rfl, hclean.lower _ hlt⟩
    simp only [threadStep, hpc]
    refine hclean.advance rfl (cleaning_freeFrom (k + 1)) ?_ (fun m => ?_) ?_ ?_ hclean.null
    · simp [State.setPc, hnull, freeFrom_ne_done]
    · rw [released_freeFrom hlt]
      have hm : s.instanceReleases m = if m < k then 1 else 0 := hinstances m
      have hk : s.instanceReleases k = if k < k then 1 else 0 := hinstances k
      simp only [State.setPc, Function.update_apply, hm, hk]
      split_ifs <;> omega
    · exact harray.trans (arrayFreed_freeFrom (k + 1)).symm
    · simp [State.setPc, hclean.early, hready]
  | loadArray =>
    rw [hpc] at hinstances harray
    have hstep : threadStep calls s c = s.setPc c .freeArray := by simp [threadStep, hpc, hnull]
    rw [hstep]
    exact hclean.advance rfl trivial (by simp [State.setPc, hnull]) hinstances harray hclean.early
      hclean.null
  | freeArray =>
    rw [hpc] at hinstances harray
    simp only [threadStep, hpc]
    exact hclean.advance rfl trivial (by simp [State.setPc, hnull]) hinstances
      (by simp [State.setPc, harray, Pc.arrayFreed]) hclean.early hclean.null
  | setNull =>
    rw [hpc] at hinstances harray
    simp only [threadStep, hpc]
    exact hclean.advance rfl trivial (by simp [State.setPc]) hinstances harray hclean.early hclean.null

/-! ### The other threads -/

/-- Another thread goes on to the end of its initialisation. -/
theorem Cleanup.setPc_other (hclean : Cleanup calls s c) (hne : j ≠ c) {pc : Pc}
    (hpc : pc = .test ∨ pc = .done) : Cleanup calls (s.setPc j pc) c := by
  have hself : (s.setPc j pc).pc c = s.pc c := setPc_pc_of_ne hne.symm
  refine ⟨fun k hk => ?_, fun k hk => ?_, hclean.notArray, ?_, ?_, ?_, ?_, hclean.early, hclean.null⟩
  · refine ⟨(hclean.others k hk).1, ?_⟩
    by_cases hkj : k = j
    · rw [hkj, setPc_pc_self]
      exact .inr (.inr hpc)
    · rw [setPc_pc_of_ne hkj]
      exact (hclean.others k hk).2
  · by_cases hkj : k = j
    · rw [hkj, setPc_pc_self]
      rcases hpc with rfl | rfl <;> trivial
    · rw [setPc_pc_of_ne hkj]
      exact hclean.lower k hk
  · rw [hself]; exact hclean.cleaning
  · rw [hself]; exact hclean.isNull
  · rw [hself]; exact hclean.instances
  · rw [hself]; exact hclean.array

theorem cleanup_threadStep_other (hclean : Cleanup calls s c) (hne : j ≠ c) :
    Cleanup calls (threadStep calls s j) c := by
  obtain ⟨hout, hpc⟩ := hclean.others j hne
  rcases hpc with ⟨hpc, -⟩ | hpc | hpc | hpc
  · simpa [threadStep, hpc] using hclean
  · have hstep : threadStep calls s j = s.setPc j .test := by simp [threadStep, hpc, hout]
    rw [hstep]
    exact hclean.setPc_other hne (.inl rfl)
  · have hstep : threadStep calls s j = s.setPc j .done := by simp [threadStep, hpc, hout]
    rw [hstep]
    exact hclean.setPc_other hne (.inr rfl)
  · simpa [threadStep, hpc] using hclean

/-! ### The call of `buf_pool_free` -/

theorem NoCleanup.setPc (hno : NoCleanup calls s) {pc : Pc}
    (hpc : ¬ pc.initialised ∨ pc = .test ∨ pc = .done ∧ calls.initOutcome i = .success) :
    NoCleanup calls (s.setPc i pc) := by
  refine ⟨fun j => ?_, hno.notNull, hno.instances, hno.array, hno.early, hno.null⟩
  by_cases hne : j = i
  · rw [hne, setPc_pc_self]
    exact hpc
  · rw [setPc_pc_of_ne hne]
    exact hno.pc j

/-- A thread that calls `buf_pool_free` in good order begins the clean-up. -/
theorem cleanup_begins (hslots : Slots calls s) (hno : NoCleanup calls s) (hpc : s.pc i = .test)
    (hfails : calls.initOutcome i ≠ .success) (horderly : Orderly calls s (.thread i)) :
    Cleanup calls (s.setPc i (freeFrom i 0)) i := by
  obtain ⟨hothers, hlower, harray⟩ := horderly hpc hfails
  refine ⟨fun j hne => ?_, fun j hlt => ?_, harray, ?_, ?_, fun k => ?_, ?_, hno.early, hno.null⟩
  · obtain ⟨hout, hindex, hcreate⟩ := hothers j hne
    rw [setPc_pc_of_ne hne]
    refine ⟨hout, ?_⟩
    have hfree : s.pc j ≠ .freeSlot := fun h => by
      have hchunk := hslots.fails j (.inl h)
      rw [hout] at hchunk
      cases hchunk
    rcases hno.pc j with hinit | htest | ⟨hdone, -⟩
    · cases hj : s.pc j with
      | unborn => exact .inl ⟨rfl, hcreate hj⟩
      | init => exact .inr (.inl rfl)
      | index => exact absurd hj hindex
      | freeSlot => exact absurd hj hfree
      | _ => rw [hj] at hinit; exact absurd trivial hinit
    · exact .inr (.inr (.inl htest))
    · exact .inr (.inr (.inr hdone))
  · rw [setPc_pc_of_ne hlt.ne]
    exact hlower j hlt
  all_goals rw [setPc_pc_self]
  · exact cleaning_freeFrom 0
  · simp [State.setPc, hno.notNull, freeFrom_ne_done]
  · simp [State.setPc, hno.instances k, released_freeFrom (Nat.zero_le _)]
  · exact hno.array.trans (arrayFreed_freeFrom 0).symm

theorem noCleanup_threadStep (hslots : Slots calls s) (hno : NoCleanup calls s)
    (hborn : s.pc i ≠ .unborn) (hdone : s.pc i ≠ .done) (horderly : Orderly calls s (.thread i)) :
    NoCleanup calls (threadStep calls s i) ∨ Cleanup calls (threadStep calls s i) i := by
  cases hpc : s.pc i with
  | unborn => exact absurd hpc hborn
  | done => exact absurd hpc hdone
  | index =>
    have hstep : threadStep calls s i = s.setPc i .init := by simp [threadStep, hpc, hno.notNull]
    rw [hstep]
    exact .inl (hno.setPc (.inl id))
  | init =>
    left
    simp only [threadStep, hpc]
    split
    · exact hno.setPc (.inl id)
    · exact hno.setPc (.inr (.inl rfl))
    · exact hno.setPc (.inr (.inl rfl))
  | freeSlot =>
    left
    have hpast : NoCleanup calls (s.setPc i .test) := hno.setPc (.inr (.inl rfl))
    simp only [threadStep, hpc]
    exact ⟨hpast.pc, hno.notNull, hno.instances, hno.array, hno.early, hno.null⟩
  | test =>
    by_cases hout : calls.initOutcome i = .success
    · left
      simp only [threadStep, hpc, hout, if_true]
      exact hno.setPc (.inr (.inr ⟨rfl, hout⟩))
    · right
      simp only [threadStep, hpc, hout, if_false]
      exact cleanup_begins hslots hno hpc hout horderly
  | _ =>
    have hcontra := hno.pc i
    rw [hpc] at hcontra
    simp [Pc.initialised] at hcontra

theorem phase_of_run {trace : List (Event n)}
    (hrun : Run (Restrict (Step calls) (Orderly calls)) (initial n) trace s) :
    NoCleanup calls s ∨ ∃ c, Cleanup calls s c := by
  refine hrun.invariant (P := fun _ s => NoCleanup calls s ∨ ∃ c, Cleanup calls s c)
    (.inl noCleanup_initial) fun _ s e s' hrun hphase hstep => ?_
  have hinv := inv_of_run hrun.of_restrict
  have hslots := slots_of_run hrun.of_restrict
  obtain ⟨⟨henabled, rfl⟩, horderly⟩ := hstep
  rcases hphase with hno | ⟨c, hclean⟩
  · cases e with
    | main => exact .inl (noCleanup_mainStep hinv hno)
    | thread i =>
      exact (noCleanup_threadStep hslots hno henabled.2.1 henabled.2.2 horderly).imp_right fun h => ⟨i, h⟩
  · right
    refine ⟨c, ?_⟩
    cases e with
    | main => exact cleanup_mainStep hinv hclean
    | thread i =>
      by_cases hne : i = c
      · subst hne
        exact cleanup_threadStep_self henabled.2.2 hclean
      · exact cleanup_threadStep_other hclean hne

/-- Instance 0 is ready, instance 1 gets no chunk. -/
def secondFails : Calls 2 := ⟨fun _ => 0, ![.success, .chunkFails]⟩

def secondFailsSchedule : List (Event 2) :=
  [.main, .main, .thread 0, .thread 0, .thread 0] ++ List.replicate 9 (.thread 1)

/-- Instance 0 succeeds, instances 1 and 2 fail. -/
def twoFail : Calls 3 := ⟨fun _ => 0, ![.success, .forcedOom, .forcedOom]⟩

/-- Thread 1 cleans up before thread 0 has begun. -/
def tooEarly : List (Event 3) :=
  [.main, .main, .main] ++ List.replicate 5 (.thread 1)

/-- Threads 1 and 2 clean up side by side. -/
def sideBySide : List (Event 3) :=
  [.main, .main, .main, .thread 0, .thread 0, .thread 0] ++ List.replicate 5 (.thread 1) ++
    List.replicate 7 (.thread 2) ++ [.thread 1, .thread 2, .thread 1, .thread 2]

/-- Thread 1 cleans up and thread 2 begins afterwards. -/
def tooLate : List (Event 3) :=
  [.main, .main, .main, .thread 0, .thread 0, .thread 0] ++ List.replicate 8 (.thread 1) ++ [.thread 2]

end Multicore.BufPool
