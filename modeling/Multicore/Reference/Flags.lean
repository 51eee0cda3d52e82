import Multicore.Reference.Model

/-!
# The flags of the threads

A word of flags is a set of threads, and the operations of the source on words are operations on
sets: everything the proofs need to know of `FLAG`, of the words at the start, and of the loop that
records a meeting for every bit.
-/

namespace Multicore.Reference

variable {V : Type*}

theorem getLsbD_flag {i : ℕ} (hi : i < 64) (j : ℕ) : (flag i).getLsbD j = decide (i = j) := by
  rw [flag, BitVec.getLsbD_shiftLeft, BitVec.getLsbD_one]
  by_cases hj : i = j
  · subst hj
    simp [hi]
  · by_cases hlt : j < i
    · simp [hlt, hj]
    · have hne : j - i ≠ 0 := by omega
      simp [hne, hj]

/-- The test of a mark. -/
theorem and_flag_eq_zero_iff {x : BitVec 64} {i : ℕ} (hi : i < 64) :
    x &&& flag i = 0#64 ↔ x.getLsbD i = false := by
  rw [BitVec.zero_iff_eq_false]
  constructor
  · intro hx
    have hbit := hx i
    rw [BitVec.getLsbD_and, getLsbD_flag hi, decide_eq_true rfl, Bool.and_true] at hbit
    exact hbit
  · intro hx k
    rw [BitVec.getLsbD_and, getLsbD_flag hi]
    by_cases hk : i = k
    · rw [← hk, hx, Bool.false_and]
    · rw [decide_eq_false hk, Bool.and_false]

theorem and_one_ne_zero_iff {x : BitVec 64} : x &&& 1#64 ≠ 0#64 ↔ x.getLsbD 0 = true := by
  have hone : (1#64 : BitVec 64) = flag 0 := by decide
  rw [hone, ne_eq, and_flag_eq_zero_iff (by decide), Bool.not_eq_false]

theorem recordLoop_of_lt (info : VisitInfo V) (rounds : ℕ) (flagBefore : BitVec 64) {thd k : ℕ}
    (hk : k < thd) (visitInfo : ℕ → VisitInfo V) :
    Thread.recordLoop info rounds flagBefore thd visitInfo k = visitInfo k := by
  induction rounds generalizing flagBefore thd visitInfo with
  | zero => rfl
  | succ rounds ih =>
    rw [Thread.recordLoop]
    split
    · rfl
    · rw [ih _ (by omega)]
      split
      · rw [Function.update_of_ne hk.ne]
      · rfl

/-- The bits that are set in the word are the threads that get a record. -/
theorem recordLoop_apply (info : VisitInfo V) {rounds : ℕ} {flagBefore : BitVec 64}
    (hbits : ∀ k, rounds ≤ k → flagBefore.getLsbD k = false) (thd : ℕ) (visitInfo : ℕ → VisitInfo V)
    (k : ℕ) :
    Thread.recordLoop info rounds flagBefore thd visitInfo (thd + k) =
      if flagBefore.getLsbD k then info else visitInfo (thd + k) := by
  induction rounds generalizing flagBefore thd visitInfo k with
  | zero => rw [Thread.recordLoop, hbits k (Nat.zero_le k), if_neg Bool.false_ne_true]
  | succ rounds ih =>
    rw [Thread.recordLoop]
    split
    · rename_i hzero
      rw [BitVec.zero_iff_eq_false.1 hzero k, if_neg Bool.false_ne_true]
    · have hshift : ∀ j, (flagBefore >>> 1).getLsbD j = flagBefore.getLsbD (1 + j) :=
        fun j => BitVec.getLsbD_ushiftRight flagBefore 1 j
      have hrest : ∀ j, rounds ≤ j → (flagBefore >>> 1).getLsbD j = false := by
        intro j hj
        rw [hshift]
        exact hbits (1 + j) (by omega)
      cases k with
      | zero =>
        change Thread.recordLoop info rounds (flagBefore >>> 1) (thd + 1) _ thd =
          if flagBefore.getLsbD 0 = true then info else visitInfo thd
        rw [recordLoop_of_lt info rounds _ (Nat.lt_add_one thd)]
        by_cases hbit : flagBefore.getLsbD 0 = true
        · rw [if_pos (and_one_ne_zero_iff.2 hbit), if_pos hbit, Function.update_self]
        · rw [if_neg (mt and_one_ne_zero_iff.1 hbit), if_neg hbit]
      | succ k =>
        have hindex : thd + (k + 1) = thd + 1 + k := by omega
        rw [hindex, ih hrest, hshift, Nat.add_comm 1 k]
        have hne : thd + 1 + k ≠ thd := by omega
        split
        · rfl
        · split
          · rw [Function.update_of_ne hne]
          · rfl

/-! ### Meeting other threads -/

section Meet

variable (t : Thread V) (neighbor : V) (flagBefore : BitVec 64) (k : ℕ)

theorem meet_visitedFlag : (t.meet neighbor flagBefore).visitedFlag.getLsbD k =
    (t.visitedFlag.getLsbD k || flagBefore.getLsbD k) := by
  rw [Thread.meet]
  split
  · dsimp only
    rw [BitVec.getLsbD_or, BitVec.getLsbD_and, BitVec.getLsbD_not]
    by_cases hk : k < 64
    · cases t.visitedFlag.getLsbD k <;> simp [hk]
    · rw [BitVec.getLsbD_of_ge flagBefore k (not_lt.1 hk), Bool.false_and]
  · rename_i hzero
    rw [ne_eq, not_not] at hzero
    rw [BitVec.zero_iff_eq_false.1 hzero k, Bool.or_false]

theorem meet_visitInfo : (t.meet neighbor flagBefore).visitInfo k =
    if flagBefore.getLsbD k = true ∧ t.visitedFlag.getLsbD k = false then
      ⟨some neighbor, t.currDepth + 1⟩
    else t.visitInfo k := by
  rw [Thread.meet]
  split
  · have hbits : ∀ k, 64 ≤ k → (flagBefore &&& ~~~t.visitedFlag).getLsbD k = false :=
      fun k hk => BitVec.getLsbD_of_ge _ k hk
    have hloop := recordLoop_apply ⟨some neighbor, t.currDepth + 1⟩ hbits 0 t.visitInfo k
    rw [Nat.zero_add] at hloop
    dsimp only
    rw [hloop, BitVec.getLsbD_and, BitVec.getLsbD_not]
    by_cases hk : k < 64
    · simp [hk]
    · rw [BitVec.getLsbD_of_ge flagBefore k (not_lt.1 hk)]
      simp
  · rename_i hzero
    rw [ne_eq, not_not] at hzero
    rw [BitVec.zero_iff_eq_false.1 hzero k, if_neg fun h => Bool.false_ne_true h.1]

@[simp] theorem meet_queue : (t.meet neighbor flagBefore).queue = t.queue := by
  rw [Thread.meet]
  split <;> rfl

@[simp] theorem meet_front : (t.meet neighbor flagBefore).front = t.front := by
  rw [Thread.meet]
  split <;> rfl

@[simp] theorem meet_currDepth : (t.meet neighbor flagBefore).currDepth = t.currDepth := by
  rw [Thread.meet]
  split <;> rfl

@[simp] theorem meet_depthFence : (t.meet neighbor flagBefore).depthFence = t.depthFence := by
  rw [Thread.meet]
  split <;> rfl

end Meet

/-! ### The words at the start -/

theorem getLsbD_fullFlag {input : Input} (k : ℕ) :
    input.fullFlag.getLsbD k = true ↔ k < input.numHouse := by
  have hfold : ∀ (l : List (Fin input.numHouse)) (x : BitVec 64),
      (l.foldl (fun full (i : Fin input.numHouse) => full ||| flag i.val) x).getLsbD k = true ↔
        x.getLsbD k = true ∨ ∃ i ∈ l, i.val = k := by
    intro l
    induction l with
    | nil => simp
    | cons i l ih =>
      intro x
      rw [List.foldl_cons, ih, BitVec.getLsbD_or, getLsbD_flag (i.isLt.trans_le input.numHouse_le)]
      simp only [Bool.or_eq_true, decide_eq_true_eq, List.mem_cons, exists_eq_or_imp, or_assoc]
  rw [Input.fullFlag, hfold, BitVec.getLsbD_zero]
  constructor
  · rintro (hfalse | ⟨i, -, rfl⟩)
    · exact absurd hfalse Bool.false_ne_true
    · exact i.isLt
  · intro hk
    exact .inr ⟨⟨k, hk⟩, List.mem_finRange _, rfl⟩

theorem getLsbD_initialFlag {input : Input} (v : Fin input.numVertices) (k : ℕ) :
    (input.initialFlag v).getLsbD k = true ↔ ∃ i, input.house i = v ∧ i.val = k := by
  have hfold : ∀ (l : List (Fin input.numHouse)) (flags : Fin input.numVertices → BitVec 64),
      l.Nodup →
      ((l.foldl (fun flags i => Function.update flags (input.house i) (flag i.val)) flags v).getLsbD k
          = true ↔
        ((∀ i ∈ l, input.house i ≠ v) ∧ (flags v).getLsbD k = true) ∨
          ∃ i ∈ l, input.house i = v ∧ i.val = k) := by
    intro l
    induction l with
    | nil => simp
    | cons i l ih =>
      intro flags hnodup
      obtain ⟨hi, hnodup⟩ := List.nodup_cons.1 hnodup
      rw [List.foldl_cons, ih _ hnodup]
      by_cases hv : input.house i = v
      · have hother : ∀ j ∈ l, input.house j ≠ v := by
          intro j hj heq
          rw [input.house_injective (hv.trans heq.symm)] at hi
          exact hi hj
        subst hv
        rw [Function.update_self, getLsbD_flag (i.isLt.trans_le input.numHouse_le), decide_eq_true_eq]
        simp only [List.mem_cons, forall_eq_or_imp, exists_eq_or_imp, true_and, ne_eq, not_true_eq_false,
          false_and, false_or]
        constructor
        · rintro (⟨-, hk⟩ | hrest)
          · exact .inl hk
          · exact .inr hrest
        · rintro (hk | hrest)
          · exact .inl ⟨hother, hk⟩
          · exact .inr hrest
      · rw [Function.update_of_ne (Ne.symm hv)]
        simp [hv]
  rw [Input.initialFlag, hfold _ _ (List.nodup_finRange _), BitVec.getLsbD_zero]
  simp

end Multicore.Reference
