import Mathlib.Data.Fintype.Basic
import Mathlib.Data.Finset.Union
import Mathlib.Data.List.FinRange
import Multicore.BufPool.Sizes
import Multicore.UtList.Alone

/-!
# Initialising the instances

`buf_pool_init_instance` of the xtradb `buf0buf.cc` as a list of actions, for the case that every
allocation succeeds. An instance writes its own fields, and three things it shares with the others:
`mutex_list` and `rw_lock_list`, to which each `mutex_create` and `rw_lock_create` prepends without a
lock, and `srv_n_page_hash_locks`, which is read, rounded up and written back.

A thread works off the actions of its instances one after another. One event is one step of one
thread; a prepend takes the steps that `Multicore.UtList.prependStep` gives it. With a thread for each
instance this is the `RunThread` version, with one thread for all of them the single-threaded loop.
-/

namespace Multicore.BufPool.Init

/-- The mutexes of an instance. -/
inductive InstanceMutex where
  | lruList | freeList | zipFree | zipHash | zip | flushState | flushList
  deriving DecidableEq, Repr

/-- An element of `mutex_list`. -/
inductive Mutex (n : ℕ) where
  | pool (i : Fin n) (m : InstanceMutex)
  | block (i : Fin n) (k : ℕ)
  /-- Created elsewhere. -/
  | other (k : ℕ)
  deriving DecidableEq, Repr

/-- An element of `rw_lock_list`. -/
inductive RwLock (n : ℕ) where
  | block (i : Fin n) (k : ℕ)
  | pageHash (i : Fin n) (k : ℕ)
  | other (k : ℕ)
  deriving DecidableEq, Repr

/-- The fields of `buf_pool_t` that the initialisation computes. -/
structure Instance where
  nChunks : ℕ
  /-- The free list; its elements are the blocks of the chunk in the order of their addresses. -/
  free : UtList.AppendState ℕ
  instanceNo : ℕ
  oldPoolSize : ℕ
  currSize : ℕ
  readAheadArea : ℕ
  currPoolSize : ℕ
  /-- `page_hash->n_sync_obj`, once there is a page hash. -/
  pageHashLocks : Option ℕ

/-- The instance as `mem_zalloc` leaves it. -/
def zeroed : Instance where
  nChunks := 0
  free :=
    { listStart := none, listEnd := none, count := 0, prev := fun _ => none, next := fun _ => none
      append := fun _ => .absent, appendNext := fun _ => none }
  instanceNo := 0
  oldPoolSize := 0
  currSize := 0
  readAheadArea := 0
  currPoolSize := 0
  pageHashLocks := none

inductive Action (n : ℕ) where
  | createMutex (m : Mutex n)
  | createRwLock (l : RwLock n)
  /-- `n_chunks = 1` and `UT_LIST_INIT(buf_pool->free)` -/
  | initChunk (i : Fin n)
  /-- `UT_LIST_ADD_LAST(list, buf_pool->free, (&block->page))` -/
  | addFree (i : Fin n) (k : ℕ)
  | setSizes (i : Fin n) (chunk : ℕ)
  /-- The argument of `ut_2_power_up(srv_n_page_hash_locks)`. -/
  | loadHashLocks
  | storeHashLocks
  /-- `ut_a(srv_n_page_hash_locks != 0)` -/
  | assertNonzero
  /-- `ut_a(srv_n_page_hash_locks <= MAX_PAGE_HASH_LOCKS)` -/
  | assertLimit
  /-- `ha_create`, up to the loop over its locks. -/
  | createPageHash (i : Fin n)
  /-- `table->n_sync_obj = n_sync_obj` -/
  | setPageHash (i : Fin n) (count : ℕ)
  deriving DecidableEq, Repr

def maxPageHashLocks : ℕ := 1024

section Program

variable {n : ℕ} (c : Config)

/-- The `size` that `buf_pool_init` passes to every instance. -/
def instanceSize (n : ℕ) : ℕ := c.totalSize / n

/-- What the allocator returns for the chunks; nothing is allocated for instances of size 0. -/
abbrev Memory (n : ℕ) : Type := 0 < instanceSize c n → Fin n → Region (memRequest c (instanceSize c n))

variable {c}

def chunkOf (memory : Memory c n) (i : Fin n) : ℕ :=
  if h : 0 < instanceSize c n then chunkSize c (instanceSize c n) (memory h i) else 0

variable (c)

/-- `buf_block_init` and the addition to the free list. -/
def initBlock (i : Fin n) (k : ℕ) : List (Action n) :=
  [.createMutex (.block i k), .createRwLock (.block i k), .addFree i k]

/-- The part of `buf_pool_init_instance` under `if (buf_pool_size > 0)`. -/
def initChunks (chunk : ℕ) (i : Fin n) : List (Action n) :=
  .initChunk i :: (List.range chunk).flatMap (initBlock i) ++
    [.setSizes i chunk, .loadHashLocks, .storeHashLocks, .assertNonzero, .assertLimit,
      .createPageHash i]

/-- `buf_pool_init_instance` -/
def initInstance (chunk : ℕ) (i : Fin n) : List (Action n) :=
  [.createMutex (.pool i .lruList), .createMutex (.pool i .freeList), .createMutex (.pool i .zipFree),
    .createMutex (.pool i .zipHash), .createMutex (.pool i .zip), .createMutex (.pool i .flushState)] ++
  (if 0 < instanceSize c n then initChunks chunk i else []) ++
  [.createMutex (.pool i .flushList)]

/-- `hash_create_sync_obj` of a page hash with `count` locks. -/
def hashCreateSyncObj (i : Fin n) (count : ℕ) : List (Action n) :=
  (List.range count).map (fun k => .createRwLock (.pageHash i k)) ++ [.setPageHash i count]

/-- What an action writes to the instances. -/
def Action.write (action : Action n) (pool : Fin n → Instance) : Fin n → Instance :=
  match action with
  | .initChunk i => Function.update pool i { pool i with nChunks := 1, free := (pool i).free.init }
  | .addFree i k =>
    Function.update pool i { pool i with free := UtList.appendAlone (pool i).free k }
  | .setSizes i chunk =>
    Function.update pool i
      { pool i with
        instanceNo := i
        oldPoolSize := instanceSize c n
        currSize := chunk
        readAheadArea := min 64 (ut2PowerUp (chunk / 32))
        currPoolSize := chunk * c.pageSize }
  | .setPageHash i count => Function.update pool i { pool i with pageHashLocks := some count }
  | _ => pool

end Program

/-- The pool of `n` instances in the hands of `w` threads. -/
structure State (n w : ℕ) where
  pool : Fin n → Instance
  mutexList : UtList.State (Mutex n)
  rwLockList : UtList.State (RwLock n)
  /-- `srv_n_page_hash_locks` -/
  hashLocks : ℕ
  /-- What a thread has still to do. -/
  todo : Fin w → List (Action n)
  /-- The value a thread has read from `srv_n_page_hash_locks`. -/
  register : Fin w → ℕ

section Steps

variable {n w : ℕ} (c : Config)

def State.setTodo (s : State n w) (t : Fin w) (rest : List (Action n)) : State n w :=
  { s with todo := Function.update s.todo t rest }

/-- A step of an action. -/
def perform (s : State n w) (t : Fin w) (action : Action n) : State n w :=
  match action with
  | .createMutex m => { s with mutexList := UtList.prependStep s.mutexList m }
  | .createRwLock l => { s with rwLockList := UtList.prependStep s.rwLockList l }
  | .loadHashLocks => { s with register := Function.update s.register t s.hashLocks }
  | .storeHashLocks => { s with hashLocks := ut2PowerUp (s.register t) }
  | .assertNonzero | .assertLimit | .createPageHash _ => s
  | .initChunk _ | .addFree _ _ | .setSizes _ _ | .setPageHash _ _ =>
    { s with pool := action.write c s.pool }

/-- What is left of the actions `action :: rest` after a step. A prepend stays the next action until
its last step; the number of locks of a page hash is read when it is created. -/
def remaining (s : State n w) (action : Action n) (rest : List (Action n)) : List (Action n) :=
  match action with
  | .createMutex m =>
    if (UtList.prependStep s.mutexList m).prepend m = .inserted then rest else action :: rest
  | .createRwLock l =>
    if (UtList.prependStep s.rwLockList l).prepend l = .inserted then rest else action :: rest
  | .createPageHash i => hashCreateSyncObj i s.hashLocks ++ rest
  | _ => rest

/-- The assertions: the two on `srv_n_page_hash_locks`, and the one of `hash_create_sync_obj` on its
number of locks, which is not called for 0. -/
def Asserted (s : State n w) : Action n → Prop
  | .assertNonzero => s.hashLocks ≠ 0
  | .assertLimit => s.hashLocks ≤ maxPageHashLocks
  | .createPageHash _ => s.hashLocks ≠ 0 → UtIs2pow s.hashLocks
  | _ => True

/-- A thread that is not done has a next step, unless an assertion fails. -/
def CanPerform (s : State n w) : List (Action n) → Prop
  | [] => False
  | action :: _ => Asserted s action

def Enabled (s : State n w) (t : Fin w) : Prop := CanPerform s (s.todo t)

instance decidableAsserted (s : State n w) : ∀ action, Decidable (Asserted s action)
  | .assertNonzero => inferInstanceAs (Decidable (s.hashLocks ≠ 0))
  | .assertLimit => inferInstanceAs (Decidable (s.hashLocks ≤ maxPageHashLocks))
  | .createPageHash _ => inferInstanceAs (Decidable (s.hashLocks ≠ 0 → UtIs2pow s.hashLocks))
  | .createMutex _ | .createRwLock _ | .initChunk _ | .addFree _ _ | .setSizes _ _ | .loadHashLocks
  | .storeHashLocks | .setPageHash _ _ => inferInstanceAs (Decidable True)

instance decidableCanPerform (s : State n w) : ∀ todo, Decidable (CanPerform s todo)
  | [] => inferInstanceAs (Decidable False)
  | action :: _ => inferInstanceAs (Decidable (Asserted s action))

instance decidableEnabled (s : State n w) (t : Fin w) : Decidable (Enabled s t) :=
  inferInstanceAs (Decidable (CanPerform s (s.todo t)))

def effect (s : State n w) (t : Fin w) : State n w :=
  match s.todo t with
  | [] => s
  | action :: rest => (perform c s t action).setTodo t (remaining s action rest)

abbrev Step : State n w → Fin w → State n w → Prop := Fires Enabled (effect c)

/-- All threads are done. -/
def Finished (s : State n w) : Prop := ∀ t, s.todo t = []

variable {c}

/-- The instances of thread `t` in their order. -/
def instancesOf (owner : Fin n → Fin w) (t : Fin w) : List (Fin n) :=
  (List.finRange n).filter fun i => owner i = t

/-- The pool is zeroed and thread `owner i` is about to initialise instance `i`. -/
def start (memory : Memory c n) (owner : Fin n → Fin w) (mutexList : UtList.State (Mutex n))
    (rwLockList : UtList.State (RwLock n)) (hashLocks : ℕ) : State n w where
  pool := fun _ => zeroed
  mutexList := mutexList
  rwLockList := rwLockList
  hashLocks := hashLocks
  todo := fun t => (instancesOf owner t).flatMap fun i => initInstance c (chunkOf memory i) i
  register := fun _ => 0

end Steps

/-! ### The elements that are created -/

section Created

variable {n : ℕ}

def Action.mutexes : Action n → List (Mutex n)
  | .createMutex m => [m]
  | _ => []

/-- The locks an action leads to when the page hashes get `count` locks. -/
def Action.rwLocks (count : ℕ) : Action n → List (RwLock n)
  | .createRwLock l => [l]
  | .createPageHash i => (List.range count).map (.pageHash i)
  | _ => []

/-- The mutexes of all instances, and of `chunk i` blocks of instance `i`. -/
def newMutexes (c : Config) (chunk : Fin n → ℕ) : Finset (Mutex n) :=
  Finset.univ.biUnion fun i => ((initInstance c (chunk i) i).flatMap Action.mutexes).toFinset

def newRwLocks (c : Config) (chunk : Fin n → ℕ) (count : ℕ) : Finset (RwLock n) :=
  Finset.univ.biUnion fun i => ((initInstance c (chunk i) i).flatMap (Action.rwLocks count)).toFinset

end Created

end Multicore.BufPool.Init
