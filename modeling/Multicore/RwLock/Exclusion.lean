import Multicore.Base.Count
import Multicore.RwLock.Moves

/-!
# Readers and writers exclude each other

The lock word is `X_LOCK_DECR` less what the threads have taken. So a thread that finds it positive finds
no writer, and a writer that finds it at 0 finds no readers; and the functions that read the state of the
lock off the lock word are right about it at any time.
-/

namespace Multicore.RwLock

variable {n : ℕ} {prio : Bool} {rounds : ℕ} {s s' : State n} {e : Event n} {i : Fin n}
  {l l' : PrioRwLock n} {t t' : Thread n}

/-! ### Every reachable state -/

theorem Thread.taken_nonneg (t : Thread n) : 0 ≤ t.taken :=
  add_nonneg (Int.natCast_nonneg _) (weight_nonneg _)

/-- The lock word says what the threads have taken from it. -/
structure Guarded (s : State n) : Prop where
  word : s.lock.lockWord + ∑ i, (s.thread i).taken = xLockDecr
  apart : ∀ i, 0 < (s.thread i).xHeld → (s.thread i).sHeld = false
  bounded : ∀ i, ((s.thread i).xHeld : ℤ) ≤ xLockDecr
  unique : ∀ i j, 0 < (s.thread i).xHeld → 0 < (s.thread j).xHeld → i = j
  whole : ∀ i j, 0 < (s.thread i).xHeld → (s.thread i).draining = false → (s.thread j).sHeld = false
  recursive : s.lock.recursive = true →
    ∃ i, 0 < (s.thread i).xHeld ∧ s.lock.writerThread = some i
  knows : ∀ i, Knows s.lock i (s.thread i)

theorem guarded_initial : Guarded (initial n) := by
  constructor <;> simp [initial, Thread.taken, weight, xLockDecr, Knows]

namespace Guarded

theorem taken_le (h : Guarded s) (i : Fin n) : s.lock.lockWord + (s.thread i).taken ≤ xLockDecr := by
  have hle := Finset.single_le_sum (f := fun i => (s.thread i).taken)
    (fun j _ => (s.thread j).taken_nonneg) (Finset.mem_univ i)
  have hword := h.word
  omega

theorem taken_add_le (h : Guarded s) {i j : Fin n} (hne : i ≠ j) :
    s.lock.lockWord + ((s.thread i).taken + (s.thread j).taken) ≤ xLockDecr := by
  have hle := Finset.sum_le_sum_of_subset_of_nonneg (f := fun i => (s.thread i).taken)
    (Finset.subset_univ {i, j}) (fun k _ _ => (s.thread k).taken_nonneg)
  rw [Finset.sum_pair hne] at hle
  have hword := h.word
  omega

theorem decr_le_taken (hx : 0 < t.xHeld) : xLockDecr ≤ t.taken := by
  have hle := decr_le_weight hx
  simp only [Thread.taken]
  omega

theorem one_le_taken (hs : t.sHeld = true) : 1 ≤ t.taken := by
  have hnonneg := weight_nonneg t.xHeld
  simp only [Thread.taken, hs, Bool.toNat_true]
  omega

/-- Whoever has taken from the lock word has left it at 0 or below. -/
theorem lockWord_nonpos (h : Guarded s) (hx : 0 < (s.thread i).xHeld) : s.lock.lockWord ≤ 0 := by
  have hle := h.taken_le i
  have hdecr := decr_le_taken hx
  omega

theorem xHeld_of_pos (h : Guarded s) (hpos : 0 < s.lock.lockWord) (i : Fin n) :
    (s.thread i).xHeld = 0 := by
  by_contra hx
  have := h.lockWord_nonpos (Nat.pos_of_ne_zero hx)
  omega

theorem recursive_of_pos (h : Guarded s) (hpos : 0 < s.lock.lockWord) : s.lock.recursive = false := by
  by_contra hrecursive
  obtain ⟨i, hx, -⟩ := h.recursive (by simpa using hrecursive)
  simp [h.xHeld_of_pos hpos i] at hx

theorem sHeld_of_eq (h : Guarded s) (hword : s.lock.lockWord = xLockDecr) (i : Fin n) :
    (s.thread i).sHeld = false := by
  by_contra hs
  have hle := h.taken_le i
  have hone := one_le_taken (t := s.thread i) (by simpa using hs)
  omega

/-- There are no readers where the writer finds the lock word at 0 or above. -/
theorem sHeld_of_nonneg (h : Guarded s) (hx : 0 < (s.thread i).xHeld) (hword : 0 ≤ s.lock.lockWord)
    (j : Fin n) : (s.thread j).sHeld = false := by
  by_contra hs
  by_cases heq : i = j
  · exact hs (heq ▸ h.apart i hx)
  · have hle := h.taken_add_le heq
    have hdecr := decr_le_taken hx
    have hone := one_le_taken (t := s.thread j) (by simpa using hs)
    omega

theorem word_of_whole (h : Guarded s) (hx : 0 < (s.thread i).xHeld)
    (hdraining : (s.thread i).draining = false) :
    s.lock.lockWord + weight (s.thread i).xHeld = xLockDecr := by
  have hothers : ∀ j, j ≠ i → (s.thread j).taken = 0 := fun j hne => by
    have hxj : (s.thread j).xHeld = 0 := by
      by_contra hxj
      exact hne (h.unique j i (Nat.pos_of_ne_zero hxj) hx)
    simp [Thread.taken, hxj, h.whole i j hx hdraining, weight]
  have hword := h.word
  rw [Finset.sum_eq_single i (fun j _ => hothers j) (by simp)] at hword
  simpa [Thread.taken, h.apart i hx] using hword

theorem view (h : Guarded s) (i : Fin n) : View s.lock i (s.thread i) where
  apart := h.apart i
  bounded := h.bounded i
  free hpos := ⟨h.xHeld_of_pos hpos i, h.recursive_of_pos hpos⟩
  none hword := h.sHeld_of_eq hword i
  whole := h.word_of_whole
  writer hx hrecursive := by
    obtain ⟨j, hj, hwriter⟩ := h.recursive hrecursive
    rw [hwriter, h.unique j i hj hx]
  other hx hrecursive hwriter := by
    obtain ⟨j, hj, hwriter'⟩ := h.recursive hrecursive
    rw [hwriter, Option.some_inj] at hwriter'
    rw [← hwriter', hx] at hj
    exact lt_irrefl 0 hj

section Moves

variable (h : Guarded s) (hmoves : Moves i s.lock (s.thread i) l' t')
include h hmoves

theorem unique_moves (j k : Fin n) (hj : 0 < (Function.update s.thread i t' j).xHeld)
    (hk : 0 < (Function.update s.thread i t' k).xHeld) : j = k := by
  -- The moving thread is no new owner beside an old one.
  have hother : ∀ m, m ≠ i → 0 < (s.thread m).xHeld → t'.xHeld = 0 := fun m hne hm => by
    by_contra hx
    rcases hmoves.owner (Nat.pos_of_ne_zero hx) with hold | hpos
    · exact hne (h.unique m i hm hold)
    · simp [h.xHeld_of_pos hpos m] at hm
  by_cases hji : j = i <;> by_cases hki : k = i
  · rw [hji, hki]
  · subst hji
    rw [Function.update_self] at hj
    rw [Function.update_of_ne hki] at hk
    simp [hother k hki hk] at hj
  · subst hki
    rw [Function.update_self] at hk
    rw [Function.update_of_ne hji] at hj
    simp [hother j hji hj] at hk
  · rw [Function.update_of_ne hji] at hj
    rw [Function.update_of_ne hki] at hk
    exact h.unique j k hj hk

theorem whole_moves (j k : Fin n) (hj : 0 < (Function.update s.thread i t' j).xHeld)
    (hdraining : (Function.update s.thread i t' j).draining = false) :
    (Function.update s.thread i t' k).sHeld = false := by
  by_cases hji : j = i
  · subst hji
    rw [Function.update_self] at hj hdraining
    by_cases hkj : k = j
    · rw [hkj, Function.update_self]
      exact hmoves.apart hj
    · rw [Function.update_of_ne hkj]
      rcases hmoves.whole hj hdraining with ⟨hx, hdraining | hnonneg⟩ | hword
      · exact h.whole j k hx hdraining
      · exact h.sHeld_of_nonneg hx hnonneg k
      · exact h.sHeld_of_eq hword k
  · rw [Function.update_of_ne hji] at hj hdraining
    by_cases hki : k = i
    · rw [hki, Function.update_self]
      by_contra hs
      rcases hmoves.reader (by simpa using hs) with hold | hpos
      · simp [h.whole j i hj hdraining] at hold
      · simp [h.xHeld_of_pos hpos j] at hj
    · rw [Function.update_of_ne hki]
      exact h.whole j k hj hdraining

theorem recursive_moves (hrecursive : l'.recursive = true) :
    ∃ j, 0 < (Function.update s.thread i t' j).xHeld ∧ l'.writerThread = some j := by
  rcases hmoves.recursive hrecursive with ⟨hold, hwriter, hkeeps⟩ | ⟨hx, hwriter⟩
  · obtain ⟨j, hj, hj'⟩ := h.recursive hold
    refine ⟨j, ?_, hwriter.trans hj'⟩
    by_cases hji : j = i
    · subst hji
      rw [Function.update_self]
      exact hkeeps hj
    · rwa [Function.update_of_ne hji]
  · exact ⟨i, by rwa [Function.update_self], hwriter⟩

theorem knows_moves (j : Fin n) : Knows l' j (Function.update s.thread i t' j) := by
  by_cases hji : j = i
  · subst hji
    rw [Function.update_self]
    exact hmoves.knows
  · rw [Function.update_of_ne hji]
    refine (h.knows j).frame (fun hx => ?_) fun hid => ?_
    · exact hmoves.fields.resolve_right fun hx' => hji (h.unique j i hx hx')
    · rcases hmoves.id with hsame | hself
      · exact hsame ▸ hid
      · rw [hself, Option.some_inj] at hid
        exact absurd hid.symm hji

theorem moves : Guarded ({ s with lock := l' }.setThread i t') where
  word := by
    have hsum := sum_update_add Thread.taken (f := s.thread) i t'
    have hword := h.word
    have hmoved := hmoves.word
    simp only [State.setThread]
    omega
  apart j := by
    by_cases hji : j = i
    · subst hji
      simpa [State.setThread] using hmoves.apart
    · simpa [State.setThread, hji] using h.apart j
  bounded j := by
    by_cases hji : j = i
    · subst hji
      simpa [State.setThread] using hmoves.bounded
    · simpa [State.setThread, hji] using h.bounded j
  unique := h.unique_moves hmoves
  whole := h.whole_moves hmoves
  recursive := h.recursive_moves hmoves
  knows := h.knows_moves hmoves

end Moves

/-- Handing over what one thread has taken leaves the sum as it is. -/
theorem sum_taken_pass {f : Fin n → Thread n} {j : Fin n} {a b : Thread n} (hne : j ≠ i)
    (htaken : a.taken + b.taken = (f i).taken + (f j).taken) :
    ∑ k, (Function.update (Function.update f i a) j b k).taken = ∑ k, (f k).taken := by
  have hfirst := sum_update_add Thread.taken (f := f) i a
  have hsecond := sum_update_add Thread.taken (f := Function.update f i a) j b
  rw [Function.update_of_ne hne] at hsecond
  omega

theorem passShared {j : Fin n} (h : Guarded s) (hidle : (s.thread i).pc = .idle)
    (hs : (s.thread i).sHeld = true) (hfree : (s.thread j).Free) :
    Guarded (effect prio rounds s (.passShared i j)) := by
  obtain ⟨hidle', hs', hx'⟩ := hfree
  have hne : j ≠ i := fun heq => by simp [heq, hs] at hs'
  have hxi : (s.thread i).xHeld = 0 := by
    by_contra hx
    simp [h.apart i (Nat.pos_of_ne_zero hx)] at hs
  have hthread : ∀ k, ((effect prio rounds s (.passShared i j)).thread k).xHeld = (s.thread k).xHeld ∧
      ((effect prio rounds s (.passShared i j)).thread k).draining = (s.thread k).draining := by
    intro k
    simp only [effect, State.setThread, Function.update_apply]
    split_ifs with hkj hki
    · simp [hkj, Thread.draining]
    · simp [hki, Thread.draining]
    · simp
  refine ⟨?_, fun k hk => ?_, fun k => (hthread k).1 ▸ h.bounded k, fun k m hk hm => ?_,
    fun k m hk hdraining => ?_, fun hrecursive => ?_, fun k => ?_⟩
  · refine Eq.trans ?_ h.word
    congr 1
    exact sum_taken_pass hne (by simp [Thread.taken, hs, hs', hxi, hx', weight])
  · rw [(hthread k).1] at hk
    simp only [effect, State.setThread, Function.update_apply]
    split_ifs with hkj hki
    · simp [hkj, hx'] at hk
    · rfl
    · exact h.apart k hk
  · exact h.unique k m ((hthread k).1 ▸ hk) ((hthread m).1 ▸ hm)
  · -- There is no writer beside the reader.
    have hnone := h.whole k i ((hthread k).1 ▸ hk) ((hthread k).2 ▸ hdraining)
    simp [hs] at hnone
  · obtain ⟨k, hk, hwriter⟩ := h.recursive hrecursive
    exact ⟨k, (hthread k).1 ▸ hk, hwriter⟩
  · simp only [effect, State.setThread, Function.update_apply]
    split_ifs with hkj hki
    · simp [Knows, hidle']
    · simp [Knows, hidle]
    · exact h.knows k

theorem passExclusive {j : Fin n} (h : Guarded s) (hidle : (s.thread i).pc = .idle)
    (hx : (s.thread i).xHeld = 1) (hrecursive : s.lock.recursive = false) (hfree : (s.thread j).Free) :
    Guarded (effect prio rounds s (.passExclusive i j)) := by
  obtain ⟨hidle', hs', hx'⟩ := hfree
  have hne : j ≠ i := fun heq => by simp [heq, hx] at hx'
  have hpos : 0 < (s.thread i).xHeld := by omega
  have hs : (s.thread i).sHeld = false := h.apart i hpos
  have hnone : ∀ k, ((effect prio rounds s (.passExclusive i j)).thread k).sHeld = false := by
    intro k
    have hdraining : (s.thread i).draining = false := by simp [Thread.draining, hidle]
    simp only [effect, State.setThread, Function.update_apply]
    split_ifs with hkj hki
    · exact hs'
    · exact hs
    · exact h.whole i k hpos hdraining
  have howner : ∀ k, ((effect prio rounds s (.passExclusive i j)).thread k).xHeld =
      if k = j then 1 else 0 := by
    intro k
    simp only [effect, State.setThread, Function.update_apply]
    split_ifs with hkj hki
    · rfl
    · rfl
    · by_contra hk
      exact hki (h.unique k i (Nat.pos_of_ne_zero hk) hpos)
  have hunique : ∀ k, 0 < ((effect prio rounds s (.passExclusive i j)).thread k).xHeld → k = j := by
    intro k hk
    by_contra hkj
    simp [howner k, hkj] at hk
  refine ⟨?_, fun k _ => hnone k, fun k => ?_, fun k m hk hm => (hunique k hk).trans (hunique m hm).symm,
    fun _ k _ _ => hnone k, fun h => ?_, fun k => ?_⟩
  · refine Eq.trans ?_ h.word
    congr 1
    exact sum_taken_pass hne (by simp [Thread.taken, hs, hs', hx, hx', weight])
  · rw [howner k]
    split <;> simp [xLockDecr]
  · exact absurd (h.symm.trans hrecursive) (by decide)
  · simp only [effect, State.setThread, Function.update_apply]
    split_ifs with hkj hki
    · simp [Knows, hidle']
    · simp [Knows, hidle]
    · exact h.knows k

theorem step (h : Guarded s) (hstep : Step prio rounds s e s') : Guarded s' := by
  obtain ⟨henabled, rfl⟩ := hstep
  cases e with
  | call i c => exact h.moves (moves_call (h.view i) henabled.1 henabled.2)
  | step i => exact h.moves (moves_next (h.view i) (h.knows i))
  | passShared i j => exact h.passShared henabled.1 henabled.2.1 henabled.2.2
  | passExclusive i j => exact h.passExclusive henabled.1 henabled.2.1 henabled.2.2.1 henabled.2.2.2
  | wake which =>
    cases which <;> exact ⟨h.word, h.apart, h.bounded, h.unique, h.whole, h.recursive,
      fun j => (h.knows j).frame (fun _ => ⟨rfl, rfl⟩) id⟩

end Guarded

theorem guarded_of_run {trace : List (Event n)} (hrun : Run (Step prio rounds) (initial n) trace s) :
    Guarded s :=
  hrun.invariant (P := fun _ s => Guarded s) guarded_initial fun _ _ _ _ _ h hstep => h.step hstep

/-! ### What the lock word tells -/

/-- The number of shared locks. -/
def State.readers (s : State n) : ℕ := count Thread.sHeld s.thread

/-- A next writer has taken one lock. -/
theorem Knows.xHeld_of_draining (h : Knows l i t) (hdraining : t.draining = true) : t.xHeld = 1 := by
  cases hpc : t.pc <;> simp only [Thread.draining, hpc, Bool.false_eq_true] at hdraining <;>
    simp only [Knows, Claims, hpc] at h
  case assertRecursive => exact h.2.1
  case loadWriter =>
    rw [if_neg fun hsite => by simp [hsite, Site.waits] at hdraining] at h
    exact h.1
  case casWriter =>
    rw [if_neg fun hsite => by simp [hsite, Site.waits] at hdraining] at h
    exact h.1.1
  case setRecursive => exact h.1 fun hsite => by simp [hsite, Site.waits] at hdraining
  all_goals exact h

namespace Guarded

theorem word_add_readers (h : Guarded s) :
    s.lock.lockWord + (s.readers + ∑ i, weight (s.thread i).xHeld) = xLockDecr := by
  have hword := h.word
  simp only [Thread.taken, Finset.sum_add_distrib] at hword
  simpa [State.readers, count] using hword

/-- The three shapes of the lock word: free or read, owned by a writer, or waited for by the next
writer. -/
theorem word_cases (h : Guarded s) :
    ((∀ i, (s.thread i).xHeld = 0) ∧ s.lock.lockWord = xLockDecr - s.readers) ∨
      (∃ i, 0 < (s.thread i).xHeld ∧ ∑ j, (s.thread j).xHeld = (s.thread i).xHeld ∧
        ((s.readers = 0 ∧ s.lock.lockWord = xLockDecr - weight (s.thread i).xHeld) ∨
          (0 < s.readers ∧ s.lock.lockWord = -s.readers))) := by
  have hword := h.word_add_readers
  by_cases howner : ∃ i, 0 < (s.thread i).xHeld
  · obtain ⟨i, hx⟩ := howner
    have hothers : ∀ j, j ≠ i → (s.thread j).xHeld = 0 := fun j hne => by
      by_contra hj
      exact hne (h.unique j i (Nat.pos_of_ne_zero hj) hx)
    have hsum : ∑ j, (s.thread j).xHeld = (s.thread i).xHeld :=
      Finset.sum_eq_single i (fun j _ hne => hothers j hne) (by simp)
    rw [Finset.sum_eq_single i (fun j _ hne => by simp [hothers j hne, weight]) (by simp)] at hword
    refine .inr ⟨i, hx, hsum, ?_⟩
    by_cases hreaders : s.readers = 0
    · exact .inl ⟨hreaders, by omega⟩
    · -- Where there are readers, the owner is the next writer only.
      have hdraining : (s.thread i).draining = true := by
        by_contra hdraining
        refine hreaders (count_eq_zero_iff.mpr fun j => ?_)
        exact h.whole i j hx (by simpa using hdraining)
      rw [(h.knows i).xHeld_of_draining hdraining, weight] at hword
      exact .inr ⟨by omega, by omega⟩
  · have hnone : ∀ i, (s.thread i).xHeld = 0 := by simpa using howner
    simp only [hnone, weight, Finset.sum_const_zero] at hword
    exact .inl ⟨hnone, by omega⟩

end Guarded

/-- Two exclusive locks have one holder; once a writer is past the wait for the readers, there are none;
a thread in the part that changes the lock word without an atomic operation is the only one that holds
anything; and a thread that holds an exclusive lock never goes to sleep for another one. -/
theorem rw_lock_excludes (trace : List (Event n)) (s : State n)
    (hrun : Run (Step prio rounds) (initial n) trace s) :
    (∀ i j, 0 < (s.thread i).xHeld → 0 < (s.thread j).xHeld → i = j) ∧
      (∀ i j, 0 < (s.thread i).xHeld → (s.thread i).draining = false → (s.thread j).sHeld = false) ∧
      (∀ i, (s.thread i).pc = .relockTest ∨ (s.thread i).pc = .relockLoad ∨
          (s.thread i).pc = .relockStore →
        0 < (s.thread i).xHeld ∧ ∀ j, (s.thread j).sHeld = false ∧ (j ≠ i → (s.thread j).xHeld = 0)) ∧
      ∀ i, (s.thread i).pc = .beginWait ∨ (s.thread i).pc = .sleep → (s.thread i).xHeld = 0 := by
  have h := guarded_of_run hrun
  refine ⟨h.unique, h.whole, fun i hpc => ?_, fun i hpc => ?_⟩
  · have hdraining : (s.thread i).draining = false := by
      rcases hpc with hpc | hpc | hpc <;> simp [Thread.draining, hpc]
    have hx : 0 < (s.thread i).xHeld := by
      have hknows := h.knows i
      rcases hpc with hpc | hpc | hpc <;> simp only [Knows, hpc] at hknows
      · exact hknows.1
      · exact hknows.1.1
      · exact hknows.1.1
    refine ⟨hx, fun j => ⟨h.whole i j hx hdraining, fun hne => ?_⟩⟩
    by_contra hj
    exact hne (h.unique j i (Nat.pos_of_ne_zero hj) hx)
  · have hknows := h.knows i
    rcases hpc with hpc | hpc <;> simp only [Knows, hpc] at hknows <;> exact hknows.2.2

/-- The first thread has an exclusive lock and is about to take another one. -/
def relocking : List (Event 2) :=
  .call 0 (.xLock false false) :: List.replicate 8 (.step 0) ++
    .call 0 (.xLock false false) :: List.replicate 4 (.step 0)

theorem rw_lock_excludes_relocking :
    let s := execute (effect false 0) (initial 2) relocking
    (s.thread 0).pc = .relockLoad ∧ (s.thread 1).sHeld = false ∧ (s.thread 1).xHeld = 0 := by
  intro s
  have hpc : (s.thread 0).pc = .relockLoad := by decide
  have halone := ((rw_lock_excludes relocking.reverse s (run_execute (by decide))).2.2.1 0
    (.inr (.inl hpc))).2 1
  exact ⟨hpc, halone.1, halone.2 (by decide)⟩

namespace Guarded

variable (h : Guarded s) (hn : (n : ℤ) < xLockDecr)
include h hn

theorem getReaderCount_eq : s.lock.getReaderCount = s.readers := by
  have hle : s.readers ≤ n := count_le_card.trans_eq (Fintype.card_fin n)
  unfold PrioRwLock.getReaderCount
  rcases h.word_cases with ⟨-, hword⟩ | ⟨i, hx, -, ⟨hreaders, hword⟩ | ⟨hreaders, hword⟩⟩
  · rw [if_pos (by omega)]
    omega
  · have hex := word_of_weight hx hword
    rw [if_neg (by omega), if_neg (by omega)]
    omega
  · rw [if_neg (by omega), if_pos (by omega)]
    omega

theorem getXLockCount_eq :
    s.lock.getXLockCount = if s.readers = 0 then ∑ i, ((s.thread i).xHeld : ℤ) else 0 := by
  have hle : s.readers ≤ n := count_le_card.trans_eq (Fintype.card_fin n)
  have hdecr : 0 < xLockDecr := by decide
  rw [← Nat.cast_sum]
  unfold PrioRwLock.getXLockCount
  rcases h.word_cases with ⟨hnone, hword⟩ | ⟨i, hx, hsum, ⟨hreaders, hword⟩ | ⟨hreaders, hword⟩⟩
  · rw [if_pos ⟨by omega, by omega⟩]
    simp [hnone]
  · rw [if_pos hreaders, hsum]
    rcases word_of_weight hx hword with ⟨hone, hzero⟩ | ⟨htwo, hbelow⟩
    · rw [if_neg (by omega), if_pos hzero, hone, Nat.cast_one]
    · rw [if_neg (by omega), if_neg (by omega)]
      omega
  · rw [if_pos ⟨by omega, by omega⟩, if_neg (by omega)]

theorem getWriter_eq : s.lock.getWriter =
    if ∀ i, (s.thread i).xHeld = 0 then .notLocked else if s.readers = 0 then .ex else .waitEx := by
  have hle : s.readers ≤ n := count_le_card.trans_eq (Fintype.card_fin n)
  unfold PrioRwLock.getWriter
  rcases h.word_cases with ⟨hnone, hword⟩ | ⟨i, hx, -, ⟨hreaders, hword⟩ | ⟨hreaders, hword⟩⟩
  · rw [if_pos (by omega), if_pos hnone]
  · have hex := word_of_weight hx hword
    rw [if_neg (by omega), if_pos (by omega), if_neg fun hnone => by simp [hnone i] at hx, if_pos hreaders]
  · rw [if_neg (by omega), if_neg (by omega), if_neg fun hnone => by simp [hnone i] at hx,
      if_neg (by omega)]

end Guarded

/-- `rw_lock_get_writer`, `rw_lock_get_reader_count` and `rw_lock_get_x_lock_count` tell at any time
who holds the lock. -/
theorem lock_word_tells (hn : (n : ℤ) < xLockDecr) (trace : List (Event n)) (s : State n)
    (hrun : Run (Step prio rounds) (initial n) trace s) :
    s.lock.getReaderCount = s.readers ∧
      s.lock.getXLockCount = (if s.readers = 0 then ∑ i, ((s.thread i).xHeld : ℤ) else 0) ∧
      s.lock.getWriter =
        if ∀ i, (s.thread i).xHeld = 0 then .notLocked else if s.readers = 0 then .ex else .waitEx := by
  have h := guarded_of_run hrun
  exact ⟨h.getReaderCount_eq hn, h.getXLockCount_eq hn, h.getWriter_eq hn⟩

/-- The first thread reads, the second one waits for it to leave. -/
def oneReader : List (Event 2) :=
  .call 0 (.sLock false) :: List.replicate 2 (.step 0) ++
    .call 1 (.xLock false false) :: List.replicate 8 (.step 1)

theorem lock_word_tells_oneReader :
    let s := execute (effect false 0) (initial 2) oneReader
    s.lock.getReaderCount = s.readers ∧ s.lock.lockWord = -1 := by
  intro s
  have hall : AllEnabled (Enabled false) (effect false 0) (initial 2) oneReader := by decide
  exact ⟨(lock_word_tells (by decide) oneReader.reverse s (run_execute hall)).1, by decide⟩

end Multicore.RwLock
