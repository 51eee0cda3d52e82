import Mathlib.Data.Multiset.AddSub
import Multicore.Mvcc.Model

/-!
# Versions as the queue stores them

A version is a `uint64_t`, and so is the `version` field of a queue node, but between the two it goes
through the `int` parameter of `AddRear`: the low 32 bits, extended by their sign. The second critical
section looks for the version itself. Here the queue holds 64-bit words, so that nothing about the
conversion is left out.
-/

namespace Multicore.Mvcc

/-- A `uint64_t` argument after `AddRear` has taken it as an `int` and stored it as a `uint64_t`. -/
def intParameter (version : BitVec 64) : BitVec 64 := (version.setWidth 32).signExtend 64

/-- Read as a signed number, what the queue stores is what the runs of the whole program store. -/
theorem toInt_intParameter (version : BitVec 64) :
    (intParameter version).toInt = toInt version.toNat := by
  rw [intParameter, BitVec.toInt_signExtend_of_le (by decide), BitVec.toInt_setWidth]
  rfl

/-- The low 32 bits of a 64-bit number carry its signed value if its upper 33 bits are equal. -/
theorem toInt_eq_bmod_iff {v : ℕ} (hlt : v < 2 ^ 64) :
    toInt v = (v : ℤ).bmod (2 ^ 64) ↔ v < 2 ^ 31 ∨ 2 ^ 64 - 2 ^ 31 ≤ v := by
  unfold toInt
  rw [Int.bmod_def, Int.bmod_def]
  omega

/-- A version survives the conversion if it is below `2 ^ 31`, or a negative `int` to begin with. -/
theorem intParameter_eq_iff (version : BitVec 64) :
    intParameter version = version ↔ version.toNat < 2 ^ 31 ∨ 2 ^ 64 - 2 ^ 31 ≤ version.toNat := by
  have hsigned := BitVec.toInt_eq_toNat_bmod version
  rw [← BitVec.toInt_inj, toInt_intParameter, hsigned]
  exact toInt_eq_bmod_iff version.isLt

/-! ### The other readers of the same thread -/

/-- What the critical sections of the readers of one thread do to its queue. -/
inductive ReaderOp where
  | register (version : BitVec 64)
  | unregister (version : BitVec 64)
  deriving DecidableEq, Repr

def ReaderOp.apply (q : Queue (BitVec 64)) : ReaderOp → Queue (BitVec 64)
  | .register version => q.addRear (intParameter version)
  | .unregister version => q.unregister version

/-- No operation takes an entry `entry` away where the queue has none: who removes one removes one
that was there. -/
def TakesOwn (entry : BitVec 64) : Queue (BitVec 64) → List ReaderOp → Prop
  | _, [] => True
  | q, op :: ops =>
    (op = .unregister entry → entry ∈ q.versions) ∧ TakesOwn entry (op.apply q) ops

variable {q q' : Queue (BitVec 64)} {entry version : BitVec 64}

theorem ReaderOp.wellFormed_apply (op : ReaderOp) (hq : q.WellFormed) : (op.apply q).WellFormed := by
  cases op with
  | register version => exact hq.addRear _
  | unregister version => exact (hq.unregister version).1

/-- `q'` is `q` with one more entry. -/
def OneMore (entry : BitVec 64) (q q' : Queue (BitVec 64)) : Prop :=
  (q'.versions : Multiset (BitVec 64)) = entry ::ₘ (q.versions : Multiset (BitVec 64))

theorem OneMore.apply {op : ReaderOp} (h : OneMore entry q q') (hq : q.WellFormed)
    (hq' : q'.WellFormed) (hown : op = .unregister entry → entry ∈ q.versions) :
    OneMore entry (op.apply q) (op.apply q') := by
  unfold OneMore at h ⊢
  cases op with
  | register version =>
    simp only [ReaderOp.apply, hq.versions_addRear, hq'.versions_addRear, ← Multiset.coe_add]
    rw [h, Multiset.cons_add]
  | unregister version =>
    simp only [ReaderOp.apply, (hq.unregister version).2, (hq'.unregister version).2,
      ← Multiset.coe_erase]
    rw [h]
    by_cases hversion : version = entry
    · subst hversion
      rw [Multiset.erase_cons_head, Multiset.cons_erase (Multiset.mem_coe.mpr (hown rfl))]
    · rw [Multiset.erase_cons_tail _ (Ne.symm hversion)]

/-- Readers that take back their own entries leave the additional one where it is. -/
theorem OneMore.foldl {ops : List ReaderOp} (h : OneMore entry q q') (hq : q.WellFormed)
    (hq' : q'.WellFormed) (hown : TakesOwn entry q ops) :
    OneMore entry (ops.foldl ReaderOp.apply q) (ops.foldl ReaderOp.apply q') ∧
      (ops.foldl ReaderOp.apply q').WellFormed := by
  induction ops generalizing q q' with
  | nil => exact ⟨h, hq'⟩
  | cons op ops ih =>
    exact ih (h.apply hq hq' hown.1) (op.wellFormed_apply hq) (op.wellFormed_apply hq') hown.2

theorem OneMore.unregister_iff (h : OneMore entry q q') (hq' : q'.WellFormed) :
    ((q'.unregister version).versions : Multiset (BitVec 64)) = q.versions ↔ entry = version := by
  rw [(hq'.unregister version).2, ← Multiset.coe_erase, h]
  constructor
  · intro hsame
    by_contra hne
    -- the entry is still there, once more than without it
    have hcount := congrArg (Multiset.count entry) hsame
    rw [Multiset.erase_cons_tail _ hne, Multiset.count_cons_self, Multiset.count_erase_of_ne hne]
      at hcount
    exact absurd hcount (Nat.succ_ne_self _)
  · rintro rfl
    rw [Multiset.erase_cons_head]

/-- Whatever the other readers of the thread do in between, as long as they take back entries of their
own, a reader that registered `version` takes its entry back, and leaves the entries the queue would
hold without it, exactly if the version survives the `int` parameter. -/
theorem registration_taken_back_iff {others : List ReaderOp} (hq : q.WellFormed)
    (hown : TakesOwn (intParameter version) q others) :
    (((others.foldl ReaderOp.apply (q.addRear (intParameter version))).unregister version).versions :
        Multiset (BitVec 64)) = (others.foldl ReaderOp.apply q).versions ↔
      version.toNat < 2 ^ 31 ∨ 2 ^ 64 - 2 ^ 31 ≤ version.toNat := by
  have hmore : OneMore (intParameter version) q (q.addRear (intParameter version)) := by
    rw [OneMore, hq.versions_addRear, ← Multiset.coe_add, Multiset.coe_singleton, add_comm,
      Multiset.singleton_add]
  obtain ⟨hmore', hwell⟩ := hmore.foldl hq (hq.addRear _) hown
  rw [hmore'.unregister_iff hwell, intParameter_eq_iff]

/-- A queue as `CreateQueue` leaves it. -/
def emptyQueue : Queue (BitVec 64) :=
  { count := 0, minimum := 0#64, deleteFront := 0#64, front := [], rear := none, fresh := 0 }

theorem wellFormed_emptyQueue : emptyQueue.WellFormed :=
  ⟨rfl, fun hne => absurd rfl hne, List.nodup_nil, by simp [emptyQueue]⟩

/-- A reader of version `7` registers, another one of the same version registers and leaves, and the
first one leaves: the entry that was there before remains. -/
theorem registration_taken_back_iff_sameVersion :
    let q := emptyQueue.addRear 3#64
    let others := [ReaderOp.register 7#64, .unregister 7#64]
    (((others.foldl ReaderOp.apply (q.addRear (intParameter 7#64))).unregister 7#64).versions :
      Multiset (BitVec 64)) = [3#64] := by
  intro q others
  have hq : q.WellFormed := wellFormed_emptyQueue.addRear _
  have hown : TakesOwn (intParameter 7#64) q others :=
    ⟨fun heq => (by cases heq), fun _ => by decide, trivial⟩
  exact (registration_taken_back_iff hq hown).mpr (.inl (by decide))

/-- The reader that registers version `2 ^ 31` in an empty queue leaves an entry behind for good. -/
theorem entry_left_behind :
    let version := BitVec.ofNat 64 (2 ^ 31)
    emptyQueue.WellFormed ∧ emptyQueue.versions = [] ∧
      ((emptyQueue.addRear (intParameter version)).unregister version).versions =
        [BitVec.ofNat 64 (2 ^ 64 - 2 ^ 31)] :=
  ⟨wellFormed_emptyQueue, rfl, by decide⟩

end Multicore.Mvcc
