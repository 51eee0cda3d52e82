import Multicore.BufPool.Parallel

/-!
# The pool a block belongs to

A block remembers its instance as the index of the instance in `buf_pool_ptr`, in a field of six bits.
`MAX_BUFFER_POOLS` is 64, and the option `innodb_buffer_pool_instances` is checked against it; the
number of processors, which the start-up puts in its place, is not. So the blocks of the instances
behind the first 64 lead to an instance that is not theirs.
-/

namespace Multicore.BufPool.Init

/-- Where the array of the instances lies. -/
structure PoolArray where
  bufPoolPtr : ℕ
  /-- `sizeof(buf_pool_t)` -/
  poolSize : ℕ
  poolSize_pos : 0 < poolSize

/-- `&buf_pool_ptr[i]` -/
def PoolArray.entry (a : PoolArray) (i : ℕ) : ℕ := a.bufPoolPtr + i * a.poolSize

/-- `buf_pool_index` -/
def bufPoolIndex (a : PoolArray) (bufPool : ℕ) : ℕ := (bufPool - a.bufPoolPtr) / a.poolSize

/-- What of a `buf_block_t` says where it belongs. -/
structure Block where
  /-- `unsigned buf_pool_index:6` -/
  bufPoolIndex : BitVec 6

def bufBlockInit (a : PoolArray) (bufPool : ℕ) (block : Block) : Block :=
  { block with bufPoolIndex := BitVec.ofNat 6 (bufPoolIndex a bufPool) }

def bufPoolFromBpage (a : PoolArray) (bpage : Block) : ℕ := a.entry bpage.bufPoolIndex.toNat

def bufPoolFromBlock (a : PoolArray) (block : Block) : ℕ := bufPoolFromBpage a block

/-- The blocks of a chunk and the free list of its instance. -/
structure Chunk where
  blocks : ℕ → Block
  free : UtList.AppendState ℕ

/-- The loop of `buf_chunk_init` over the blocks of the chunk. -/
def bufChunkInit (a : PoolArray) (bufPool : ℕ) (chunk : Chunk) (size : ℕ) : Chunk :=
  (List.range size).foldl (fun chunk k =>
    { blocks := Function.update chunk.blocks k (bufBlockInit a bufPool (chunk.blocks k))
      free := UtList.appendAlone chunk.free k }) chunk

section Loop

variable {a : PoolArray} {bufPool size : ℕ} {chunk : Chunk}

theorem bufChunkInit_succ : bufChunkInit a bufPool chunk (size + 1) =
    { blocks := Function.update (bufChunkInit a bufPool chunk size).blocks size
        (bufBlockInit a bufPool ((bufChunkInit a bufPool chunk size).blocks size))
      free := UtList.appendAlone (bufChunkInit a bufPool chunk size).free size } := by
  rw [bufChunkInit, List.range_succ, List.foldl_append]
  rfl

theorem bufChunkInit_free : (bufChunkInit a bufPool chunk size).free =
    (List.range size).foldl UtList.appendAlone chunk.free := by
  induction size with
  | zero => rfl
  | succ size ih => rw [bufChunkInit_succ, ih, List.range_succ, List.foldl_append]; rfl

theorem bufChunkInit_index {k : ℕ} (hk : k < size) :
    ((bufChunkInit a bufPool chunk size).blocks k).bufPoolIndex =
      BitVec.ofNat 6 (bufPoolIndex a bufPool) := by
  induction size with
  | zero => cases hk
  | succ size ih =>
    rw [bufChunkInit_succ]
    by_cases heq : k = size
    · subst heq
      simp only [Function.update_self]
      rfl
    · simp only [Function.update_of_ne heq]
      exact ih (by omega)

end Loop

theorem bufPoolIndex_entry (a : PoolArray) (i : ℕ) : bufPoolIndex a (a.entry i) = i := by
  rw [bufPoolIndex, PoolArray.entry, Nat.add_sub_cancel_left, Nat.mul_div_cancel _ a.poolSize_pos]

theorem PoolArray.entry_inj (a : PoolArray) {i j : ℕ} : a.entry i = a.entry j ↔ i = j := by
  refine ⟨fun heq => ?_, fun heq => heq ▸ rfl⟩
  rw [← bufPoolIndex_entry a i, heq, bufPoolIndex_entry]

/-- A block of instance `i` leads to the instance whose index is `i` modulo 64. -/
theorem bufPoolFromBlock_init {a : PoolArray} {chunk : Chunk} {i size k : ℕ} (hk : k < size) :
    bufPoolFromBlock a ((bufChunkInit a (a.entry i) chunk size).blocks k) = a.entry (i % 64) := by
  rw [bufPoolFromBlock, bufPoolFromBpage, bufChunkInit_index hk, bufPoolIndex_entry, BitVec.toNat_ofNat]

variable {c : Config} {n w : ℕ}

theorem chunkOf_pages (memory : Memory c n) (i : Fin n) :
    chunkOf memory i = instanceSize c n / c.pageSize - 1 := by
  unfold chunkOf
  split
  · rw [chunkSize_eq]
  · have hzero : instanceSize c n = 0 := Nat.eq_zero_of_not_pos ‹_›
    rw [hzero, Nat.zero_div]

/-- The free list of an instance when all threads are done is the one its `buf_chunk_init` leaves. -/
theorem free_of_finished {memory : Memory c n} {first : ℕ} {oldMutexes : List (Mutex n)}
    {oldRwLocks : List (RwLock n)} {mutexList : UtList.State (Mutex n)}
    {rwLockList : UtList.State (RwLock n)} {owner : Fin n → Fin w} {trace : List (Fin w)}
    {s : State n w} (hfresh : Fresh memory first oldMutexes oldRwLocks mutexList rwLockList)
    (hrun : Run (Step c) (start memory owner mutexList rwLockList first) trace s)
    (hfinished : Finished s) (a : PoolArray) (blocks : ℕ → Block) (i : Fin n) :
    (s.pool i).free = (bufChunkInit a (a.entry i) ⟨blocks, zeroed.free.init⟩ (chunkOf memory i)).free := by
  rw [pool_of_finished hfresh hrun hfinished, bufChunkInit_free]
  by_cases hsize : 0 < instanceSize c n
  · rw [finalInstance_of_pos hsize]
  · rw [finalInstance_of_zero hsize, chunkOf_of_zero memory i hsize]
    rfl

/-- The free list of instance `i` holds blocks that all lead back to instance `i` exactly if `i` is
below 64, or if the size of an instance is less than two pages, which leaves no block at all. -/
theorem blocks_know_pool_iff (memory : Memory c n) (a : PoolArray) (blocks : ℕ → Block) (i : Fin n) :
    let chunk := bufChunkInit a (a.entry i) ⟨blocks, zeroed.free.init⟩ (chunkOf memory i)
    ∃ L, UtList.Spells chunk.free L ∧
      ((∀ k ∈ L, bufPoolFromBlock a (chunk.blocks k) = a.entry i) ↔
        i.val < 64 ∨ instanceSize c n / c.pageSize < 2) := by
  intro chunk
  refine ⟨List.range (chunkOf memory i), ?_, ?_⟩
  · rw [bufChunkInit_free]
    exact UtList.spells_appends UtList.spells_init List.nodup_range
  have hblock : ∀ k ∈ List.range (chunkOf memory i),
      (bufPoolFromBlock a (chunk.blocks k) = a.entry i ↔ i.val < 64) := by
    intro k hk
    rw [bufPoolFromBlock_init (List.mem_range.mp hk), a.entry_inj]
    omega
  have hpages := chunkOf_pages memory i
  constructor
  · intro hall
    rcases Nat.eq_zero_or_pos (chunkOf memory i) with hzero | hpos
    · right
      omega
    · left
      have hfirst := List.mem_range.mpr hpos
      exact (hblock 0 hfirst).mp (hall 0 hfirst)
  · rintro (hi | hsmall) k hk
    · exact (hblock k hk).mpr hi
    · have := List.mem_range.mp hk
      omega

/-- Two pages of 16 bytes for each of 65 instances. -/
def sixtyFive : Config := ⟨65 * 32, 4, 4⟩

def sixtyFiveChunks : Memory sixtyFive 65 := fun _ _ => ⟨5, 48, by decide, by decide⟩

def poolArray : PoolArray := ⟨4096, 8, by decide⟩

/-- The one block of instance 64 leads to instance 0. -/
theorem last_of_sixtyFive :
    let chunk := bufChunkInit poolArray (poolArray.entry 64) ⟨fun _ => ⟨0⟩, zeroed.free.init⟩
      (chunkOf sixtyFiveChunks 64)
    UtList.Spells chunk.free [0] ∧ bufPoolFromBlock poolArray (chunk.blocks 0) = poolArray.entry 0 ∧
      poolArray.entry 0 ≠ poolArray.entry 64 := by
  intro chunk
  have hone : chunkOf sixtyFiveChunks 64 = 1 := by
    rw [chunkOf_pages]
    decide
  refine ⟨?_, ?_, by decide⟩
  · rw [bufChunkInit_free, hone]
    exact UtList.spells_appends UtList.spells_init List.nodup_range
  · exact bufPoolFromBlock_init (by rw [hone]; exact Nat.one_pos)

end Multicore.BufPool.Init
