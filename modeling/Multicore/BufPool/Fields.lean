import Multicore.BufPool.Shared

/-!
# The fields of the instances

An instance's own fields are written by the thread that initialises it, in a fixed order. What they
come to can therefore be read off the actions that are left to that thread, and no step of any thread
changes it: its own steps work off an action, the steps of the others write elsewhere. The one value
from outside is the number of page hash locks.
-/

namespace Multicore.BufPool.Init

variable {n w : ℕ} {c : Config} {s s' : State n w} {t : Fin w} {action : Action n}
  {rest : List (Action n)} {owner : Fin n → Fin w} {first : ℕ} {i : Fin n}

/-! ### The fields of an instance -/

/-- The instance whose fields an action writes. -/
def Action.target : Action n → Option (Fin n)
  | .initChunk i | .addFree i _ | .setSizes i _ | .createPageHash i | .setPageHash i _ => some i
  | _ => none

/-- What is written in the end for an action whose page hash gets `count` locks. -/
def Action.resolve (count : ℕ) : Action n → Action n
  | .createPageHash i => .setPageHash i count
  | action => action

/-- The instances after the actions that are left. -/
def finish (c : Config) (count : ℕ) (todo : List (Action n)) (pool : Fin n → Instance) :
    Fin n → Instance :=
  todo.foldl (fun pool action => (action.resolve count).write c pool) pool

theorem write_of_target_ne {pool : Fin n → Instance} (hne : action.target ≠ some i) :
    action.write c pool i = pool i := by
  cases action with
  | initChunk j | addFree j k | setSizes j chunk | setPageHash j count =>
    have hij : i ≠ j := fun h => hne (congrArg some h.symm)
    exact Function.update_of_ne hij _ _
  | _ => rfl

theorem target_resolve (count : ℕ) : (action.resolve count).target = action.target := by
  cases action <;> rfl

/-- What an action writes to an instance depends on that instance alone. -/
theorem write_congr {pool pool' : Fin n → Instance} (hpool : pool i = pool' i) :
    action.write c pool i = action.write c pool' i := by
  by_cases htarget : action.target = some i
  · cases action with
    | initChunk j | addFree j k | setSizes j chunk | setPageHash j count =>
      obtain rfl : j = i := Option.some.inj htarget
      simp only [Action.write, Function.update_self, hpool]
    | createPageHash j => exact hpool
    | createMutex | createRwLock | loadHashLocks | storeHashLocks | assertNonzero | assertLimit =>
      exact hpool
  · rw [write_of_target_ne htarget, write_of_target_ne htarget, hpool]

theorem finish_congr {count : ℕ} {todo : List (Action n)} {pool pool' : Fin n → Instance}
    (hpool : pool i = pool' i) : finish c count todo pool i = finish c count todo pool' i := by
  induction todo generalizing pool pool' with
  | nil => exact hpool
  | cons action todo ih => exact ih (write_congr hpool)

theorem finish_append {count : ℕ} {todo more : List (Action n)} {pool : Fin n → Instance} :
    finish c count (todo ++ more) pool = finish c count more (finish c count todo pool) :=
  List.foldl_append

theorem finish_hashCreateSyncObj (count : ℕ) (pool : Fin n → Instance) :
    finish c count (hashCreateSyncObj i count) pool =
      (Action.setPageHash i count).write c pool := by
  have hlocks : ∀ locks : List ℕ,
      finish c count (locks.map fun k => .createRwLock (.pageHash i k)) pool = pool := by
    intro locks
    induction locks with
    | nil => rfl
    | cons k locks ih => exact ih
  rw [hashCreateSyncObj, finish_append, hlocks]
  rfl

/-- A step does not change what the thread's instances come to. -/
theorem finish_remaining {count : ℕ} (hcount : ∀ i, action = .createPageHash i → s.hashLocks = count)
    (pool : Fin n → Instance) :
    finish c count (remaining s action rest) (action.write c pool) =
      finish c count (action :: rest) pool := by
  cases action with
  | createMutex | createRwLock => rw [remaining]; split <;> rfl
  | createPageHash i =>
    rw [remaining, hcount i rfl, finish_append]
    exact congrArg (finish c count rest) (finish_hashCreateSyncObj count pool)
  | _ => rfl

/-- Every thread has its own instances, and what is left to do gives them the fields `final`. -/
structure PoolOk (c : Config) (count : ℕ) (owner : Fin n → Fin w) (final : Fin n → Instance)
    (s : State n w) : Prop where
  owned : ∀ t, ∀ action ∈ s.todo t, ∀ i, action.target = some i → owner i = t
  final : ∀ i, finish c count (s.todo (owner i)) s.pool i = final i

theorem target_remaining {a : Action n} (ha : a ∈ remaining s action rest) :
    a.target = none ∨ ∃ b ∈ action :: rest, b.target = a.target := by
  rcases mem_remaining ha with hold | ⟨i, rfl, hnew⟩
  · exact .inr ⟨a, hold, rfl⟩
  · rcases mem_hashCreateSyncObj hnew with ⟨k, rfl⟩ | rfl
    · exact .inl rfl
    · exact .inr ⟨.createPageHash i, List.mem_cons_self, rfl⟩

theorem poolOk_step {count : ℕ} {final : Fin n → Instance} (hstep : Step c s t s')
    (hcount : ∀ i rest, s.todo t = .createPageHash i :: rest → s.hashLocks = count)
    (h : PoolOk c count owner final s) : PoolOk c count owner final s' := by
  obtain ⟨action, rest, htodo, -, rfl⟩ := step_cases hstep
  have hpool : ((perform c s t action).setTodo t (remaining s action rest)).pool =
      action.write c s.pool := perform_pool
  have hself : ((perform c s t action).setTodo t (remaining s action rest)).todo t =
      remaining s action rest := setTodo_todo_self
  have hothers : ∀ t' ≠ t, ((perform c s t action).setTodo t (remaining s action rest)).todo t' =
      s.todo t' := fun t' hne => by rw [setTodo_todo_of_ne hne, perform_todo]
  refine ⟨fun t' a ha i hi => ?_, fun i => ?_⟩
  · by_cases hne : t' = t
    · subst hne
      rw [hself] at ha
      rcases target_remaining ha with hnone | ⟨b, hb, htarget⟩
      · rw [hnone] at hi
        cases hi
      · exact h.owned t' b (htodo ▸ hb) i (htarget.trans hi)
    · rw [hothers t' hne] at ha
      exact h.owned t' a ha i hi
  · rw [hpool]
    have hfinal := h.final i
    by_cases hown : owner i = t
    · rw [hown] at hfinal ⊢
      rw [hself, finish_remaining fun j hj => hcount j rest (hj ▸ htodo)]
      rwa [htodo] at hfinal
    · -- The thread at work writes to its own instances only.
      rw [hothers _ hown]
      refine (finish_congr (write_of_target_ne fun htarget => hown ?_)).trans hfinal
      exact h.owned t action (htodo ▸ List.mem_cons_self) i htarget

/-! ### What an instance comes to -/

/-- The fields of instance `i` after its initialisation. -/
def finalInstance (c : Config) (count chunk : ℕ) (i : Fin n) : Instance :=
  finish c count (initInstance c chunk i) (fun _ => zeroed) i

theorem finish_untouched {count : ℕ} {todo : List (Action n)} {pool : Fin n → Instance}
    (htodo : ∀ action ∈ todo, action.target ≠ some i) : finish c count todo pool i = pool i := by
  induction todo generalizing pool with
  | nil => rfl
  | cons action todo ih =>
    have haction := htodo action List.mem_cons_self
    refine (ih fun a ha => htodo a (List.mem_cons_of_mem _ ha)).trans (write_of_target_ne ?_)
    rwa [target_resolve]

theorem target_initInstance {chunk : ℕ} (haction : action ∈ initInstance c chunk i) :
    action.target = none ∨ action.target = some i := by
  unfold initInstance at haction
  rw [List.mem_append, List.mem_append] at haction
  rcases haction with (hfirst | hmiddle) | hlast
  · left
    simp only [List.mem_cons, List.not_mem_nil, or_false] at hfirst
    rcases hfirst with rfl | rfl | rfl | rfl | rfl | rfl <;> rfl
  · split at hmiddle
    · simp only [initChunks, List.cons_append, List.mem_cons, List.mem_append, List.mem_flatMap,
        initBlock, List.not_mem_nil, or_false] at hmiddle
      rcases hmiddle with rfl | ⟨k, -, rfl | rfl | rfl⟩ | rfl | rfl | rfl | rfl | rfl | rfl <;>
        simp [Action.target]
    · cases hmiddle
  · left
    rw [List.mem_singleton.mp hlast]
    rfl

/-- Among the programs of several instances only its own writes to an instance. -/
theorem finish_programs {count : ℕ} {chunk : Fin n → ℕ} {instances : List (Fin n)}
    (hnodup : instances.Nodup) (hi : i ∈ instances) (pool : Fin n → Instance) :
    finish c count (instances.flatMap fun j => initInstance c (chunk j) j) pool i =
      finish c count (initInstance c (chunk i) i) pool i := by
  have hother : ∀ j ≠ i, ∀ action ∈ initInstance c (chunk j) j, action.target ≠ some i := by
    intro j hne action haction htarget
    rcases target_initInstance haction with hnone | hsome
    · rw [hnone] at htarget
      cases htarget
    · exact hne (Option.some.inj (hsome.symm.trans htarget))
  induction instances generalizing pool with
  | nil => cases hi
  | cons j instances ih =>
    obtain ⟨hj, hnodup⟩ := List.nodup_cons.mp hnodup
    rw [List.flatMap_cons, finish_append]
    by_cases hne : j = i
    · subst hne
      refine finish_untouched fun action haction => ?_
      obtain ⟨k, hk, haction⟩ := List.mem_flatMap.mp haction
      exact hother k (fun heq => hj (heq ▸ hk)) action haction
    · have hrest : i ∈ instances := (List.mem_cons.mp hi).resolve_left (Ne.symm hne)
      rw [ih hnodup hrest]
      exact finish_congr (finish_untouched (hother j hne))

theorem poolOk_start {memory : Memory c n} {mutexList : UtList.State (Mutex n)}
    {rwLockList : UtList.State (RwLock n)} (count : ℕ) :
    PoolOk c count owner (fun i => finalInstance c count (chunkOf memory i) i)
      (start memory owner mutexList rwLockList first) := by
  refine ⟨fun t action haction i htarget => ?_, fun i => ?_⟩
  · obtain ⟨j, hj, haction⟩ := List.mem_flatMap.mp haction
    have hown : owner j = t := by simpa [instancesOf] using hj
    rcases target_initInstance haction with hnone | hsome
    · rw [hnone] at htarget
      cases htarget
    · rw [← Option.some.inj (hsome.symm.trans htarget), hown]
  · exact finish_programs ((List.nodup_finRange n).filter _) (by simp) _

/-- The blocks come to the free list in the order of their addresses. -/
theorem finish_blocks {count : ℕ} (blocks : List ℕ) (pool : Fin n → Instance) :
    finish c count (blocks.flatMap (initBlock i)) pool i =
      { pool i with free := blocks.foldl UtList.appendAlone (pool i).free } := by
  induction blocks generalizing pool with
  | nil => rfl
  | cons k blocks ih =>
    rw [List.flatMap_cons, finish_append, ih]
    simp [finish, initBlock, Action.resolve, Action.write]

theorem finish_sizes {count chunk : ℕ} (pool : Fin n → Instance) :
    finish c count [.setSizes i chunk, .loadHashLocks, .storeHashLocks, .assertNonzero, .assertLimit,
      .createPageHash i] pool i =
      { pool i with
        instanceNo := i
        oldPoolSize := instanceSize c n
        currSize := chunk
        readAheadArea := min 64 (ut2PowerUp (chunk / 32))
        currPoolSize := chunk * c.pageSize
        pageHashLocks := some count } := by
  simp [finish, Action.resolve, Action.write]

theorem finalInstance_of_pos (hsize : 0 < instanceSize c n) (count chunk : ℕ) (i : Fin n) :
    finalInstance c count chunk i =
      { nChunks := 1
        free := (List.range chunk).foldl UtList.appendAlone zeroed.free.init
        instanceNo := i
        oldPoolSize := instanceSize c n
        currSize := chunk
        readAheadArea := min 64 (ut2PowerUp (chunk / 32))
        currPoolSize := chunk * c.pageSize
        pageHashLocks := some count } := by
  have hchunk : finish c count (.initChunk i :: (List.range chunk).flatMap (initBlock i))
      (fun _ => zeroed) i =
      { zeroed with
        nChunks := 1
        free := (List.range chunk).foldl UtList.appendAlone zeroed.free.init } := by
    refine (finish_blocks (List.range chunk) _).trans ?_
    simp [Action.resolve, Action.write]
  unfold finalInstance initInstance
  rw [if_pos hsize, finish_append, finish_append]
  change finish c count (initChunks chunk i) (fun _ => zeroed) i = _
  rw [initChunks, finish_append, finish_sizes, hchunk]

theorem finalInstance_of_zero (hsize : ¬ 0 < instanceSize c n) (count chunk : ℕ) (i : Fin n) :
    finalInstance c count chunk i = zeroed := by
  unfold finalInstance initInstance
  rw [if_neg hsize]
  rfl

end Multicore.BufPool.Init
