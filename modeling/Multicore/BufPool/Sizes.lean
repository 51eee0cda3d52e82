import Mathlib.Algebra.Order.Ring.Nat
import Mathlib.Data.Nat.Log

/-!
# Sizes

What the initialisation of an instance computes: the number of blocks of its chunk and the number of
locks of its page hash.

`buf_chunk_init` asks for memory for the pages and for their descriptors, and then counts how many
blocks fit, which depends on where the memory lies. The count is cut down to `size_target`, and
`chunkSize_eq` shows that it always comes out as just that: the sizes of an instance do not depend on
what the allocator returns.

Lengths and addresses are natural numbers; memory that was allocated ends far below `2 ^ 64`.
-/

namespace Multicore.BufPool

/-! ### Rounding -/

/-- `ut_2pow_round`, for a power of two `m`. -/
def ut2powRound (n m : ℕ) : ℕ := n / m * m

def utAlign (ptr alignNo : ℕ) : ℕ := ut2powRound (ptr + alignNo - 1) alignNo

theorem le_utAlign {ptr m : ℕ} (hm : 0 < m) : ptr ≤ utAlign ptr m := by
  unfold utAlign ut2powRound
  have hmod := Nat.mod_lt (ptr + m - 1) hm
  have hdiv := Nat.div_add_mod' (ptr + m - 1) m
  omega

/-- The loop of `ut_2_power_up`. The fuel bounds the number of doublings. -/
def powerUpFrom (n : ℕ) : ℕ → ℕ → ℕ
  | 0, res => res
  | fuel + 1, res => if res < n then powerUpFrom n fuel (res * 2) else res

def ut2PowerUp (n : ℕ) : ℕ := powerUpFrom n n 1

/-- Where enough doublings are left, the loop comes to the least power of two that is not below `n`. -/
theorem powerUpFrom_eq {n fuel k : ℕ} (hle : k ≤ Nat.clog 2 n) (hfuel : Nat.clog 2 n ≤ k + fuel) :
    powerUpFrom n fuel (2 ^ k) = 2 ^ Nat.clog 2 n := by
  induction fuel generalizing k with
  | zero =>
    have heq : k = Nat.clog 2 n := by omega
    rw [powerUpFrom, ← heq]
  | succ fuel ih =>
    have hiff : 2 ^ k < n ↔ k < Nat.clog 2 n := (Nat.lt_clog_iff_pow_lt Nat.one_lt_two).symm
    rw [powerUpFrom]
    split
    · have hlt := hiff.mp ‹_›
      rw [← Nat.pow_succ]
      exact ih hlt (by omega)
    · have hge : ¬ k < Nat.clog 2 n := fun h => absurd (hiff.mpr h) ‹_›
      rw [show k = Nat.clog 2 n by omega]

/-- The fuel of `ut2PowerUp` is enough. -/
theorem ut2PowerUp_eq (n : ℕ) : ut2PowerUp n = 2 ^ Nat.clog 2 n := by
  have hfuel : Nat.clog 2 n ≤ 0 + n := by
    rw [Nat.zero_add]
    exact Nat.clog_le_of_le_pow (Nat.lt_two_pow_self).le
  exact powerUpFrom_eq (Nat.zero_le _) hfuel

theorem ut2PowerUp_idem (n : ℕ) : ut2PowerUp (ut2PowerUp n) = ut2PowerUp n := by
  rw [ut2PowerUp_eq, ut2PowerUp_eq, Nat.clog_pow 2 _ Nat.one_lt_two]

theorem ut2PowerUp_pos (n : ℕ) : 0 < ut2PowerUp n := by
  rw [ut2PowerUp_eq]
  exact Nat.two_pow_pos _

theorem ut2PowerUp_le {n k : ℕ} (hle : n ≤ 2 ^ k) : ut2PowerUp n ≤ 2 ^ k := by
  rw [ut2PowerUp_eq]
  exact Nat.pow_le_pow_right Nat.two_pos (Nat.clog_le_of_le_pow hle)

/-- `ut_is_2pow` -/
def UtIs2pow (n : ℕ) : Prop := n &&& (n - 1) = 0

instance (n : ℕ) : Decidable (UtIs2pow n) := inferInstanceAs (Decidable (_ = 0))

theorem utIs2pow_ut2PowerUp (n : ℕ) : UtIs2pow (ut2PowerUp n) := by
  rw [UtIs2pow, ut2PowerUp_eq, Nat.and_two_pow_sub_one_eq_mod, Nat.mod_self]

/-! ### The chunk -/

structure Config where
  totalSize : ℕ
  /-- `UNIV_PAGE_SIZE` is a power of two. -/
  pageShift : ℕ
  /-- `sizeof(buf_block_t)` -/
  blockSize : ℕ

def Config.pageSize (c : Config) : ℕ := 2 ^ c.pageShift

theorem Config.pageSize_pos (c : Config) : 0 < c.pageSize := Nat.two_pow_pos _

/-- The number of bytes `buf_chunk_init` asks `os_mem_alloc_large` for. -/
def memRequest (c : Config) (size : ℕ) : ℕ :=
  let memSize := ut2powRound size c.pageSize
  memSize + ut2powRound (memSize / c.pageSize * c.blockSize + (c.pageSize - 1)) c.pageSize

/-- What `os_mem_alloc_large` returns when it succeeds. It may give more than it was asked for, and it
fails when it is asked for nothing. -/
structure Region (request : ℕ) where
  mem : ℕ
  memSize : ℕ
  enough : request ≤ memSize
  positive : 0 < request

/-- The loop that takes the space of the block descriptors away. At size 0 its test fails, since no
frame lies below `chunk->blocks`. -/
def subtractDescriptors (c : Config) (blocks : ℕ) : ℕ → ℕ → ℕ
  | _, 0 => 0
  | frame, size + 1 =>
    if frame < blocks + (size + 1) * c.blockSize then
      subtractDescriptors c blocks (frame + c.pageSize) size
    else size + 1

/-- `chunk->size` -/
def chunkSize (c : Config) (size : ℕ) (region : Region (memRequest c size)) : ℕ :=
  let sizeTarget := ut2powRound size c.pageSize / c.pageSize - 1
  let frame := utAlign region.mem c.pageSize
  let fits := subtractDescriptors c region.mem frame
    (region.memSize / c.pageSize - if frame ≠ region.mem then 1 else 0)
  if sizeTarget < fits then sizeTarget else fits

/-- The loop leaves `t` blocks where their descriptors fit below the frames that are left. -/
theorem le_subtractDescriptors {c : Config} {blocks t size frame : ℕ} (ht : t ≤ size)
    (hfits : blocks + t * c.blockSize ≤ frame + (size - t) * c.pageSize) :
    t ≤ subtractDescriptors c blocks frame size := by
  induction size generalizing frame with
  | zero => exact ht.trans (Nat.zero_le _)
  | succ size ih =>
    rw [subtractDescriptors]
    split
    · have hlt : t ≠ size + 1 := by
        rintro rfl
        rw [Nat.sub_self, Nat.zero_mul] at hfits
        omega
      have hle : t ≤ size := by omega
      refine ih hle ?_
      rw [Nat.succ_sub hle, Nat.succ_mul] at hfits
      omega
    · exact ht

/-- The pages that the descriptors of `m` blocks take. -/
def descriptorPages (c : Config) (m : ℕ) : ℕ := (m * c.blockSize + (c.pageSize - 1)) / c.pageSize

theorem le_descriptorPages (c : Config) (m : ℕ) :
    m * c.blockSize ≤ descriptorPages c m * c.pageSize := by
  have hmod := Nat.mod_lt (m * c.blockSize + (c.pageSize - 1)) c.pageSize_pos
  have hdiv := Nat.div_add_mod' (m * c.blockSize + (c.pageSize - 1)) c.pageSize
  unfold descriptorPages
  omega

theorem pages_round (c : Config) (size : ℕ) :
    ut2powRound size c.pageSize / c.pageSize = size / c.pageSize :=
  Nat.mul_div_cancel _ c.pageSize_pos

theorem memRequest_eq (c : Config) (size : ℕ) :
    memRequest c size = (size / c.pageSize + descriptorPages c (size / c.pageSize)) * c.pageSize := by
  unfold memRequest
  simp only [pages_round]
  rw [Nat.add_mul]
  rfl

/-- A request that is not empty is one for at least one page. -/
theorem Region.pages_pos {c : Config} {size : ℕ} (region : Region (memRequest c size)) :
    0 < size / c.pageSize := by
  by_contra hzero
  have hpages : size / c.pageSize = 0 := Nat.eq_zero_of_not_pos hzero
  have hnone : descriptorPages c 0 = 0 := by
    rw [descriptorPages, Nat.zero_mul, Nat.zero_add]
    exact Nat.div_eq_of_lt (Nat.sub_lt c.pageSize_pos Nat.one_pos)
  have hpositive := region.positive
  rw [memRequest_eq, hpages, hnone, Nat.add_zero, Nat.zero_mul] at hpositive
  exact absurd hpositive (Nat.lt_irrefl 0)

/-- Wherever the memory lies, one block less than there are pages fits. -/
theorem sizeTarget_le_fits {c : Config} {size : ℕ} (region : Region (memRequest c size)) :
    size / c.pageSize - 1 ≤ subtractDescriptors c region.mem (utAlign region.mem c.pageSize)
      (region.memSize / c.pageSize - if utAlign region.mem c.pageSize ≠ region.mem then 1 else 0) := by
  obtain ⟨m, hm⟩ : ∃ m, m = size / c.pageSize := ⟨_, rfl⟩
  obtain ⟨fits, hfits⟩ : ∃ fits, fits = region.memSize / c.pageSize -
    if utAlign region.mem c.pageSize ≠ region.mem then 1 else 0 := ⟨_, rfl⟩
  have hframe : region.mem ≤ utAlign region.mem c.pageSize := le_utAlign c.pageSize_pos
  have hpos := region.pages_pos
  have hdescriptors := le_descriptorPages c m
  have hgot : m + descriptorPages c m ≤ region.memSize / c.pageSize := by
    rw [Nat.le_div_iff_mul_le c.pageSize_pos, hm, ← memRequest_eq]
    exact region.enough
  have hleft : m - 1 + descriptorPages c m ≤ fits := by
    rw [hfits]
    split <;> omega
  rw [← hm] at hpos ⊢
  rw [← hfits]
  apply le_subtractDescriptors (by omega)
  have hspace : (m - 1) * c.blockSize ≤ m * c.blockSize := Nat.mul_le_mul_right _ (by omega)
  have hpages : descriptorPages c m * c.pageSize ≤ (fits - (m - 1)) * c.pageSize :=
    Nat.mul_le_mul_right _ (by omega)
  omega

/-- The chunk gets one block less than it has pages. -/
theorem chunkSize_eq (c : Config) (size : ℕ) (region : Region (memRequest c size)) :
    chunkSize c size region = size / c.pageSize - 1 := by
  unfold chunkSize
  simp only [pages_round]
  rw [ite_eq_left_iff]
  intro hnot
  exact le_antisymm (Nat.le_of_not_lt hnot) (sizeTarget_le_fits region)

end Multicore.BufPool
