import Mathlib.Algebra.Order.BigOperators.Group.List
import Multicore.BufPool.Fields

/-!
# One thread for each instance, or one for all

Whichever thread initialises which instance, and in whatever order their steps come, the pool ends up
the same: the fields of the instances do not depend on the order, and the two lists of locks end up
with the same elements. The version with a thread for each instance therefore gives what the
single-threaded loop gives, up to the order of the two lists. It also ends: no assertion fails, and
every step leaves less to do.
-/

namespace Multicore.BufPool.Init

variable {n w : ℕ} {c : Config} {s s' : State n w} {t : Fin w} {action : Action n}
  {rest : List (Action n)} {owner : Fin n → Fin w} {first : ℕ}

/-! ### The work that is left -/

section Work

variable {count : ℕ}

/-- A page hash counts for the locks it is going to have. -/
def Action.base (count : ℕ) : Action n → ℕ
  | .createPageHash _ => count + 2
  | _ => 1

/-- The steps an action may still take. -/
def weight (count : ℕ) (s : State n w) (action : Action n) : ℕ :=
  action.base count + (action.mutexes.map fun m => (s.mutexList.prepend m).rank).sum +
    ((action.rwLocks count).map fun l => (s.rwLockList.prepend l).rank).sum

def work (count : ℕ) (s : State n w) (todo : List (Action n)) : ℕ := (todo.map (weight count s)).sum

theorem work_append {todo more : List (Action n)} :
    work count s (todo ++ more) = work count s todo + work count s more := by
  simp [work]

theorem one_le_weight : 1 ≤ weight count s action := by
  have hbase : 1 ≤ action.base count := by cases action <;> simp [Action.base]
  unfold weight
  omega

theorem work_hashCreateSyncObj {i : Fin n} :
    work count s (hashCreateSyncObj i count) < weight count s (.createPageHash i) := by
  have hlocks : ∀ locks : List ℕ,
      work count s (locks.map fun k => .createRwLock (.pageHash i k)) =
        locks.length + (locks.map fun k => (s.rwLockList.prepend (.pageHash i k)).rank).sum := by
    intro locks
    induction locks with
    | nil => rfl
    | cons k locks ih =>
      simp only [work, List.map_cons, List.sum_cons, List.length_cons] at ih ⊢
      rw [ih]
      simp only [weight, Action.base, Action.mutexes, Action.rwLocks, List.map_nil, List.sum_nil,
        List.map_cons, List.sum_cons]
      omega
  rw [hashCreateSyncObj, work_append, hlocks, List.length_range]
  simp [work, weight, Action.base, Action.mutexes, Action.rwLocks, Function.comp_def]
  omega

/-- No call moves away from its end. -/
def Closer (s s' : State n w) : Prop :=
  (∀ m, (s'.mutexList.prepend m).rank ≤ (s.mutexList.prepend m).rank) ∧
    ∀ l, (s'.rwLockList.prepend l).rank ≤ (s.rwLockList.prepend l).rank

theorem closer_perform : Closer s (perform c s t action) := by
  cases action with
  | createMutex m => exact ⟨fun _ => UtList.rank_prependStep_le, fun _ => le_rfl⟩
  | createRwLock l => exact ⟨fun _ => le_rfl, fun _ => UtList.rank_prependStep_le⟩
  | _ => exact ⟨fun _ => le_rfl, fun _ => le_rfl⟩

theorem Closer.weight_le (h : Closer s s') : weight count s' action ≤ weight count s action := by
  have hmutexes := List.sum_le_sum (l := action.mutexes) fun m _ => h.1 m
  have hrwLocks := List.sum_le_sum (l := action.rwLocks count) fun l _ => h.2 l
  unfold weight
  omega

theorem Closer.work_le (h : Closer s s') (todo : List (Action n)) :
    work count s' todo ≤ work count s todo :=
  List.sum_le_sum fun _ _ => h.weight_le

/-- The prepends that are next make progress. -/
structure Moving (s : State n w) (t : Fin w) : Prop where
  mutex : ∀ m rest, s.todo t = .createMutex m :: rest → UtList.Moves s.mutexList m
  rwLock : ∀ l rest, s.todo t = .createRwLock l :: rest → UtList.Moves s.rwLockList l

/-- A step leaves its thread less to do. -/
theorem work_remaining (hmoving : Moving s t) (htodo : s.todo t = action :: rest)
    (hcount : ∀ i, action = .createPageHash i → s.hashLocks = count) :
    work count (perform c s t action) (remaining s action rest) < work count s (action :: rest) := by
  have hcloser : Closer s (perform c s t action) := closer_perform
  have hrest : work count (perform c s t action) rest ≤ work count s rest := hcloser.work_le rest
  have hcons : work count s (action :: rest) = weight count s action + work count s rest := rfl
  have hone : 1 ≤ weight count s action := one_le_weight
  have hpop : work count (perform c s t action) rest < work count s (action :: rest) := by omega
  -- A prepend that is not over has become lighter.
  have hstay : weight count (perform c s t action) action < weight count s action →
      work count (perform c s t action) (action :: rest) < work count s (action :: rest) :=
    fun hlt => Nat.add_lt_add_of_lt_of_le hlt hrest
  cases action with
  | createMutex m =>
    rw [remaining]
    split
    · exact hpop
    · apply hstay
      have hlt := UtList.rank_lt_of_not_over (hmoving.mutex m rest htodo) ‹_›
      simpa [weight, Action.base, Action.mutexes, Action.rwLocks, perform] using hlt
  | createRwLock l =>
    rw [remaining]
    split
    · exact hpop
    · apply hstay
      have hlt := UtList.rank_lt_of_not_over (hmoving.rwLock l rest htodo) ‹_›
      simpa [weight, Action.base, Action.mutexes, Action.rwLocks, perform] using hlt
  | createPageHash i =>
    have hlocks : work count s (hashCreateSyncObj i count) < weight count s (.createPageHash i) :=
      work_hashCreateSyncObj
    rw [remaining, hcount i rfl, work_append]
    exact hcons ▸ Nat.add_lt_add_of_lt_of_le hlocks hrest
  | _ => exact hpop

def totalWork (count : ℕ) (s : State n w) : ℕ := ∑ t, work count s (s.todo t)

theorem totalWork_step (hmoving : Moving s t) (hstep : Step c s t s')
    (hcount : ∀ i rest, s.todo t = .createPageHash i :: rest → s.hashLocks = count) :
    totalWork count s' < totalWork count s := by
  obtain ⟨action, rest, htodo, -, rfl⟩ := step_cases hstep
  have hcloser : Closer s (perform c s t action) := closer_perform
  have hself : work count (perform c s t action) (remaining s action rest) < work count s (s.todo t) := by
    rw [htodo]
    exact work_remaining hmoving htodo fun i hi => hcount i rest (hi ▸ htodo)
  refine Finset.sum_lt_sum (fun t' _ => ?_) ⟨t, Finset.mem_univ t, ?_⟩
  · by_cases hne : t' = t
    · rw [hne, setTodo_todo_self]
      exact hself.le
    · rw [setTodo_todo_of_ne hne, perform_todo]
      exact hcloser.work_le _
  · rw [setTodo_todo_self]
    exact hself

end Work

/-! ### Runs -/

theorem mutexList_step (hstep : Step c s t s') :
    s'.mutexList = s.mutexList ∨ ∃ m, s'.mutexList = UtList.prependStep s.mutexList m := by
  obtain ⟨action, rest, -, -, rfl⟩ := step_cases hstep
  cases action with
  | createMutex m => exact .inr ⟨m, rfl⟩
  | _ => exact .inl rfl

theorem rwLockList_step (hstep : Step c s t s') :
    s'.rwLockList = s.rwLockList ∨ ∃ l, s'.rwLockList = UtList.prependStep s.rwLockList l := by
  obtain ⟨action, rest, -, -, rfl⟩ := step_cases hstep
  cases action with
  | createRwLock l => exact .inr ⟨l, rfl⟩
  | _ => exact .inl rfl

section Runs

variable {memory : Memory c n} {oldMutexes : List (Mutex n)} {oldRwLocks : List (RwLock n)}
  {mutexList : UtList.State (Mutex n)} {rwLockList : UtList.State (RwLock n)} {trace : List (Fin w)}

/-- The locks that are to be created are not in the lists yet. -/
structure Fresh (memory : Memory c n) (first : ℕ) (oldMutexes : List (Mutex n))
    (oldRwLocks : List (RwLock n)) (mutexList : UtList.State (Mutex n))
    (rwLockList : UtList.State (RwLock n)) : Prop where
  mutexes : UtList.Initial oldMutexes (newMutexes c (chunkOf memory)) mutexList
  rwLocks : UtList.Initial oldRwLocks (newRwLocks c (chunkOf memory) (ut2PowerUp first)) rwLockList

/-- What holds in every state of a run. -/
structure Inv (c : Config) (chunk : Fin n → ℕ) (first : ℕ) (owner : Fin n → Fin w) (s : State n w) :
    Prop where
  hash : HashOk first s
  pool : PoolOk c (ut2PowerUp first) owner (fun i => finalInstance c (ut2PowerUp first) (chunk i) i) s
  mutexes : Pending Action.mutexes (newMutexes c chunk) s.mutexList s.todo
  rwLocks : Pending (Action.rwLocks (ut2PowerUp first)) (newRwLocks c chunk (ut2PowerUp first))
    s.rwLockList s.todo

theorem inv_of_run (hfresh : Fresh memory first oldMutexes oldRwLocks mutexList rwLockList)
    (hrun : Run (Step c) (start memory owner mutexList rwLockList first) trace s) :
    Inv c (chunkOf memory) first owner s := by
  refine hrun.invariant (P := fun _ s => Inv c (chunkOf memory) first owner s)
    ⟨hashOk_start, poolOk_start _, pending_start hfresh.mutexes, pending_start hfresh.rwLocks⟩
    fun _ s t s' _ h hstep => ?_
  have hcount : ∀ i rest, s.todo t = .createPageHash i :: rest → s.hashLocks = ut2PowerUp first :=
    fun i rest htodo => h.hash.head_rounded htodo
  exact ⟨hashOk_step hstep h.hash, poolOk_step hstep hcount h.pool,
    pendingMutexes_step hstep h.mutexes, pendingRwLocks_step hstep hcount h.rwLocks⟩

/-- In a run, the prepends that threads have still to do make progress. -/
theorem moves_of_run {α : Type*} [DecidableEq α] {locks : Action n → List α} {old : List α}
    {new : Finset α} {list : State n w → UtList.State α} {start : State n w}
    (hinit : UtList.Initial old new (list start)) (hrun : Run (Step c) start trace s)
    (hview : ∀ s t s', Step c s t s' →
      list s' = list s ∨ ∃ e, list s' = UtList.prependStep (list s) e)
    (hpending : Pending locks new (list s) s.todo) {e : α} (he : e ∈ (s.todo t).flatMap locks) :
    UtList.Moves (list s) e := by
  obtain ⟨trace', hrun'⟩ := UtList.run_of_view list hrun hview
  have hinv := (UtList.inv_of_prepends hinit hrun').1
  exact ⟨hpending.present e (hpending.mem t e he), hinv.pendingPrev e⟩

theorem moving_of_run (hfresh : Fresh memory first oldMutexes oldRwLocks mutexList rwLockList)
    (hrun : Run (Step c) (start memory owner mutexList rwLockList first) trace s) (t : Fin w) :
    Moving s t := by
  have hinv := inv_of_run hfresh hrun
  constructor
  case mutex =>
    intro m rest htodo
    have hmem : m ∈ (s.todo t).flatMap Action.mutexes := by simp [htodo, Action.mutexes]
    exact moves_of_run hfresh.mutexes hrun (fun _ _ _ => mutexList_step) hinv.mutexes hmem
  case rwLock =>
    intro l rest htodo
    have hmem : l ∈ (s.todo t).flatMap (Action.rwLocks (ut2PowerUp first)) := by
      simp [htodo, Action.rwLocks]
    exact moves_of_run hfresh.rwLocks hrun (fun _ _ _ => rwLockList_step) hinv.rwLocks hmem

theorem totalWork_of_run (hfresh : Fresh memory first oldMutexes oldRwLocks mutexList rwLockList)
    (hrun : Run (Step c) (start memory owner mutexList rwLockList first) trace s)
    (hstep : Step c s t s') : totalWork (ut2PowerUp first) s' < totalWork (ut2PowerUp first) s :=
  totalWork_step (moving_of_run hfresh hrun t) hstep
    fun _ _ htodo => (inv_of_run hfresh hrun).hash.head_rounded htodo

/-- Every run is bounded, and as long as a thread is not done it can go on. -/
def Completes (c : Config) (start : State n w) : Prop :=
  (∃ bound, ∀ trace s, Run (Step c) start trace s → trace.length ≤ bound) ∧
    ∀ trace s, Run (Step c) start trace s → ∀ t, s.todo t ≠ [] → Enabled s t

theorem completes_start (hfresh : Fresh memory first oldMutexes oldRwLocks mutexList rwLockList)
    (hlimit : first ≤ maxPageHashLocks) (owner : Fin n → Fin w) :
    Completes c (start memory owner mutexList rwLockList first) := by
  refine ⟨⟨totalWork (ut2PowerUp first) (start memory owner mutexList rwLockList first),
    fun trace s hrun => ?_⟩, fun trace s hrun t htodo => ?_⟩
  · have hle := hrun.length_add_le (totalWork (ut2PowerUp first))
      fun _ _ _ _ hrun hstep => totalWork_of_run hfresh hrun hstep
    omega
  · obtain ⟨action, rest, htodo⟩ := List.exists_cons_of_ne_nil htodo
    unfold Enabled
    rw [htodo]
    exact (inv_of_run hfresh hrun).hash.asserted hlimit htodo

/-! ### The result -/

/-- The fields of an instance whose chunk has `chunk` blocks: all blocks are in the free list in the
order of their addresses, and the page hash has the rounded number of locks. -/
theorem finalInstance_free (count chunk : ℕ) (hchunk : ¬ 0 < instanceSize c n → chunk = 0) (i : Fin n) :
    UtList.Spells (finalInstance c count chunk i).free (List.range chunk) := by
  by_cases hsize : 0 < instanceSize c n
  · rw [finalInstance_of_pos hsize]
    exact UtList.spells_appends UtList.spells_init List.nodup_range
  · rw [finalInstance_of_zero hsize, hchunk hsize]
    have hempty : UtList.Spells zeroed.free.init [] := UtList.spells_init
    exact hempty

theorem chunkOf_of_zero (memory : Memory c n) (i : Fin n) (hsize : ¬ 0 < instanceSize c n) :
    chunkOf memory i = 0 := dif_neg hsize

/-- The number of blocks does not depend on the allocator. -/
theorem chunkOf_eq (memory memory' : Memory c n) : chunkOf memory = chunkOf memory' := by
  funext i
  unfold chunkOf
  split
  · rw [chunkSize_eq, chunkSize_eq]
  · rfl

theorem Fresh.change_memory (hfresh : Fresh memory first oldMutexes oldRwLocks mutexList rwLockList)
    (memory' : Memory c n) : Fresh memory' first oldMutexes oldRwLocks mutexList rwLockList := by
  have hchunk : chunkOf memory' = chunkOf memory := chunkOf_eq memory' memory
  exact ⟨hchunk ▸ hfresh.mutexes, hchunk ▸ hfresh.rwLocks⟩

theorem pool_of_finished (hfresh : Fresh memory first oldMutexes oldRwLocks mutexList rwLockList)
    (hrun : Run (Step c) (start memory owner mutexList rwLockList first) trace s)
    (hfinished : Finished s) (i : Fin n) :
    s.pool i = finalInstance c (ut2PowerUp first) (chunkOf memory i) i := by
  have hfinal := (inv_of_run hfresh hrun).pool.final i
  rwa [hfinished (owner i)] at hfinal

/-- When all threads are done, a list of locks holds the old elements and the new ones. -/
theorem elements_of_finished {α : Type*} [DecidableEq α] {locks : Action n → List α} {old : List α}
    {new : Finset α} {list : State n w → UtList.State α} {start : State n w}
    (hinit : UtList.Initial old new (list start)) (hrun : Run (Step c) start trace s)
    (hview : ∀ s t s', Step c s t s' →
      list s' = list s ∨ ∃ e, list s' = UtList.prependStep (list s) e)
    (hpending : Pending locks new (list s) s.todo) (hfinished : Finished s) :
    ∃ L, UtList.Intact (list s) L ∧ ∀ e, e ∈ L ↔ e ∈ old ∨ e ∈ new := by
  obtain ⟨trace', hrun'⟩ := UtList.run_of_view list hrun hview
  have hinserted : ∀ e ∈ new, (list s).prepend e = .inserted := by
    intro e he
    refine (hpending.left e he).resolve_right ?_
    rintro ⟨t, ht⟩
    rw [hfinished t] at ht
    cases ht
  obtain ⟨hintact, -, hmem⟩ := UtList.intact_of_prepends hinit hrun' hinserted
  exact ⟨_, hintact, hmem⟩

theorem mutexes_of_finished (hfresh : Fresh memory first oldMutexes oldRwLocks mutexList rwLockList)
    (hrun : Run (Step c) (start memory owner mutexList rwLockList first) trace s)
    (hfinished : Finished s) :
    ∃ L, UtList.Intact s.mutexList L ∧
      ∀ m, m ∈ L ↔ m ∈ oldMutexes ∨ m ∈ newMutexes c (chunkOf memory) :=
  elements_of_finished hfresh.mutexes hrun (fun _ _ _ => mutexList_step)
    (inv_of_run hfresh hrun).mutexes hfinished

theorem rwLocks_of_finished (hfresh : Fresh memory first oldMutexes oldRwLocks mutexList rwLockList)
    (hrun : Run (Step c) (start memory owner mutexList rwLockList first) trace s)
    (hfinished : Finished s) :
    ∃ L, UtList.Intact s.rwLockList L ∧
      ∀ l, l ∈ L ↔ l ∈ oldRwLocks ∨ l ∈ newRwLocks c (chunkOf memory) (ut2PowerUp first) :=
  elements_of_finished hfresh.rwLocks hrun (fun _ _ _ => rwLockList_step)
    (inv_of_run hfresh hrun).rwLocks hfinished

end Runs

/-- Two lists in memory hold the elements that satisfy `P`, each once, and differ in order only. -/
def SameElements {α : Type*} (list list' : UtList.State α) (P : α → Prop) : Prop :=
  ∃ L L', UtList.Intact list L ∧ UtList.Intact list' L' ∧ L.Perm L' ∧ (∀ e, e ∈ L ↔ P e) ∧
    list.count = list'.count

theorem sameElements_of_mem {α : Type*} {list list' : UtList.State α} {P : α → Prop}
    (h : ∃ L, UtList.Intact list L ∧ ∀ e, e ∈ L ↔ P e)
    (h' : ∃ L, UtList.Intact list' L ∧ ∀ e, e ∈ L ↔ P e) : SameElements list list' P := by
  obtain ⟨L, hintact, hmem⟩ := h
  obtain ⟨L', hintact', hmem'⟩ := h'
  have hperm : L.Perm L' := by
    rw [List.perm_ext_iff_of_nodup hintact.nodup hintact'.nodup]
    intro e
    rw [hmem, hmem']
  exact ⟨L, L', hintact, hintact', hperm, hmem,
    hintact.count.trans (hperm.length_eq.trans hintact'.count.symm)⟩

/-- What two finished runs agree on. -/
structure SameResult {v : ℕ} (memory : Memory c n) (first : ℕ) (oldMutexes : List (Mutex n))
    (oldRwLocks : List (RwLock n)) (s : State n w) (s' : State n v) : Prop where
  pool : ∀ i, s.pool i = s'.pool i
  /-- The free list holds the blocks of the chunk in the order of their addresses. -/
  free : ∀ i, UtList.Spells (s.pool i).free (List.range (chunkOf memory i))
  pageHash : ∀ i, (s.pool i).pageHashLocks =
    if 0 < instanceSize c n then some (ut2PowerUp first) else none
  hashLocks : s.hashLocks = finalHashLocks c n first ∧ s'.hashLocks = finalHashLocks c n first
  mutexes : SameElements s.mutexList s'.mutexList fun m =>
    m ∈ oldMutexes ∨ m ∈ newMutexes c (chunkOf memory)
  rwLocks : SameElements s.rwLockList s'.rwLockList fun l =>
    l ∈ oldRwLocks ∨ l ∈ newRwLocks c (chunkOf memory) (ut2PowerUp first)

/-- The initialisation with a thread for each instance and the one with a single thread for all of
them, each with memory of its own, both come to an end, and to the same pool. -/
theorem parallel_eq_singleThreaded (memory memory' : Memory c n) {oldMutexes : List (Mutex n)}
    {oldRwLocks : List (RwLock n)} {mutexList : UtList.State (Mutex n)}
    {rwLockList : UtList.State (RwLock n)} (hlimit : first ≤ maxPageHashLocks)
    (hfresh : Fresh memory first oldMutexes oldRwLocks mutexList rwLockList) :
    Completes c (start memory id mutexList rwLockList first) ∧
      Completes c (start memory' (fun _ => (0 : Fin 1)) mutexList rwLockList first) ∧
      ∀ trace s trace' s', Run (Step c) (start memory id mutexList rwLockList first) trace s →
        Finished s →
        Run (Step c) (start memory' (fun _ => (0 : Fin 1)) mutexList rwLockList first) trace' s' →
        Finished s' → SameResult memory first oldMutexes oldRwLocks s s' := by
  have hfresh' := hfresh.change_memory memory'
  have hchunk : chunkOf memory' = chunkOf memory := chunkOf_eq memory' memory
  refine ⟨completes_start hfresh hlimit id, completes_start hfresh' hlimit _, ?_⟩
  intro trace s trace' s' hrun hfinished hrun' hfinished'
  have hpool := pool_of_finished hfresh hrun hfinished
  have hpool' := pool_of_finished hfresh' hrun' hfinished'
  constructor
  case pool =>
    intro i
    rw [hpool, hpool', hchunk]
  case free =>
    intro i
    rw [hpool]
    exact finalInstance_free _ _ (chunkOf_of_zero memory i) i
  case pageHash =>
    intro i
    rw [hpool]
    split
    · rw [finalInstance_of_pos ‹_›]
    · rw [finalInstance_of_zero ‹_›]
      rfl
  case hashLocks => exact ⟨hashLocks_of_finished hrun hfinished, hashLocks_of_finished hrun' hfinished'⟩
  case mutexes =>
    have hmutexes' := mutexes_of_finished hfresh' hrun' hfinished'
    rw [hchunk] at hmutexes'
    exact sameElements_of_mem (mutexes_of_finished hfresh hrun hfinished) hmutexes'
  case rwLocks =>
    have hrwLocks' := rwLocks_of_finished hfresh' hrun' hfinished'
    rw [hchunk] at hrwLocks'
    exact sameElements_of_mem (rwLocks_of_finished hfresh hrun hfinished) hrwLocks'

/-- An empty list to which the elements of `new` are to be prepended. -/
def freshList {α : Type*} [DecidableEq α] (new : Finset α) : UtList.State α where
  listStart := none
  listEnd := none
  count := 0
  prev := fun _ => none
  next := fun _ => none
  prepend := fun e => if e ∈ new then .clearPrev else .absent
  prependPrev := fun _ => none
  remover := none
  removed := fun _ => false

theorem initial_freshList {α : Type*} [DecidableEq α] (new : Finset α) :
    UtList.Initial [] new (freshList new) := by
  refine ⟨⟨rfl, List.nodup_nil, ?_, ?_, rfl⟩, rfl, ?_, fun e => ?_, rfl, fun _ => rfl⟩ <;>
    simp [freshList]

/-- The lists a server starts with when no lock has been created before. -/
theorem fresh_freshList (memory : Memory c n) (first : ℕ) :
    Fresh memory first [] [] (freshList (newMutexes c (chunkOf memory)))
      (freshList (newRwLocks c (chunkOf memory) (ut2PowerUp first))) :=
  ⟨initial_freshList _, initial_freshList _⟩

/-- Instances of three pages of 16 bytes. -/
def threePages : Config := ⟨96, 4, 4⟩

/-- The chunk of every instance begins at the address `mem`. -/
def chunksAt (mem : ℕ) : Memory threePages 2 := fun _ _ => ⟨mem, 64, by decide, by decide⟩

theorem parallel_eq_singleThreaded_threePages :
    let mutexList := freshList (newMutexes threePages (chunkOf (chunksAt 5)))
    let rwLockList := freshList (newRwLocks threePages (chunkOf (chunksAt 5)) (ut2PowerUp 3))
    Completes threePages (start (chunksAt 5) id mutexList rwLockList 3) ∧
      Completes threePages (start (chunksAt 16) (fun _ => (0 : Fin 1)) mutexList rwLockList 3) ∧
      ∀ trace s trace' s',
        Run (Step threePages) (start (chunksAt 5) id mutexList rwLockList 3) trace s → Finished s →
        Run (Step threePages) (start (chunksAt 16) (fun _ => (0 : Fin 1)) mutexList rwLockList 3)
          trace' s' →
        Finished s' → SameResult (chunksAt 5) 3 [] [] s s' :=
  parallel_eq_singleThreaded (chunksAt 5) (chunksAt 16) (by decide) (fresh_freshList _ _)

/-- No memory at all for one instance. -/
def emptyConfig : Config := ⟨0, 4, 4⟩

def noMemory : Memory emptyConfig 1 := fun hsize => absurd hsize (by decide)

def emptyStart : State 1 1 :=
  start noMemory id (freshList (newMutexes emptyConfig (chunkOf noMemory)))
    (freshList (newRwLocks emptyConfig (chunkOf noMemory) (ut2PowerUp 3))) 3

/-- An instance of size 0 leaves `srv_n_page_hash_locks` at 3, which is no power of two. -/
theorem size_zero_not_rounded :
    ∃ trace s, Run (Step emptyConfig) emptyStart trace s ∧ Finished s ∧ s.hashLocks = 3 ∧
      ut2PowerUp 3 = 4 := by
  have hrun : Run (Step emptyConfig) emptyStart (List.replicate 42 (0 : Fin 1)).reverse
      (execute (effect emptyConfig) emptyStart (List.replicate 42 (0 : Fin 1))) :=
    run_execute (by decide +kernel)
  refine ⟨_, _, hrun, fun t => ?_, by decide +kernel, by decide +kernel⟩
  obtain rfl : t = 0 := Subsingleton.elim t 0
  decide +kernel

end Multicore.BufPool.Init
