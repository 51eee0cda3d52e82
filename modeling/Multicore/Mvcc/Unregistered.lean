import Multicore.Mvcc.Readers

/-!
# Readers that registered nothing

A reader that did not find its picked thread active leaves no trace in the queue. Nothing keeps the
collector from a threshold above the node the reader holds, and then the node is freed under it. The
collector stays clear of these readers when no such threshold is ever read.
-/

namespace Multicore.Mvcc

variable {n : ℕ} {hist : Fin n → List Addr} {s s' : State n} {e : Event n} {r p : Fin n} {x : Addr}

/-- Thread `r` holds a cursor into the list of `p` with nothing registered: it is between its read of
the head pointer and its last read of `A`. -/
def HoldsUnregistered (s : State n) (r p : Fin n) : Prop :=
  (s.updater r).pc.holdsCursor = true ∧ (s.updater r).isThreadActive = false ∧
    (s.updater r).pickedThreadIndex = p

instance (s : State n) (r p : Fin n) : Decidable (HoldsUnregistered s r p) :=
  inferInstanceAs (Decidable (_ ∧ _))

/-- The list the collector has a threshold for. -/
def CollectorPc.workingList : CollectorPc n → Option (Fin n)
  | .readHead i | .visit i | .cut i | .advance i | .free i => some i
  | .testRun | .testVerbosing | .readMinimum _ | .done => none

/-- The collector reads no `minimum` above a node that an unregistered reader holds. -/
def SparesHeld (s : State n) : Event n → Prop
  | .collect => ∀ i, s.collector.pc = .readMinimum i → ∀ r, HoldsUnregistered s r i →
      ∀ x ∈ (s.updater r).cursorSinglyNode, (s.queue i).minimum ≤ (s.heap x).version
  | _ => True

instance (s : State n) : ∀ e : Event n, Decidable (SparesHeld s e)
  | .collect => inferInstanceAs (Decidable (∀ i, s.collector.pc = .readMinimum i → ∀ r,
      HoldsUnregistered s r i → ∀ x ∈ (s.updater r).cursorSinglyNode, _ ≤ _))
  | .testRun _ | .pick _ _ | .enter _ | .readHead _ | .readOwn _ | .search _ | .readA _ _
  | .readAAgain _ _ | .insert _ | .leave _ | .countUp _ | .setVerbosing _ | .stopRun =>
    inferInstanceAs (Decidable True)

/-! ### What the collector does to its threshold and to `freed` -/

theorem workingList_firstList : (CollectorPc.firstList : CollectorPc n).workingList = none := by
  rcases firstList_cases (n := n) with h | ⟨i, h⟩ <;> rw [h] <;> rfl

theorem workingList_nextList (i : Fin n) : (CollectorPc.nextList i).workingList = none := by
  rcases nextList_cases i with h | ⟨j, h⟩ <;> rw [h] <;> rfl

/-- A threshold is the one the collector had, or the `minimum` it has just read. -/
theorem collectStep_threshold (hlist : (collectStep s).collector.pc.workingList = some p) :
    s.collector.pc.workingList = some p ∧
        (collectStep s).collector.minimum = s.collector.minimum ∨
      s.collector.pc = .readMinimum p ∧
        (collectStep s).collector.minimum = (s.queue p).minimum := by
  cases hpc : s.collector.pc with
  | testRun =>
    simp only [collectStep, hpc, State.setCollector] at hlist
    split at hlist <;> cases hlist
  | testVerbosing =>
    simp only [collectStep, hpc, State.setCollector] at hlist
    split at hlist
    · cases hlist
    · rw [workingList_firstList] at hlist
      cases hlist
  | readMinimum i =>
    simp only [collectStep, hpc, State.setCollector] at hlist ⊢
    obtain rfl : i = p := Option.some.inj hlist
    exact .inr ⟨rfl, rfl⟩
  | readHead i =>
    simp only [collectStep, hpc, State.setCollector] at hlist ⊢
    exact .inl ⟨hlist, trivial⟩
  | visit i =>
    simp only [collectStep, hpc] at hlist ⊢
    cases htmp : s.collector.tmp with
    | none =>
      simp only [htmp, State.setCollector, workingList_nextList] at hlist
      cases hlist
    | some y =>
      simp only [htmp] at hlist ⊢
      split at hlist <;> rename_i hcut
      · rw [if_pos hcut]
        exact .inl ⟨hlist, rfl⟩
      · rw [if_neg hcut]
        exact .inl ⟨hlist, rfl⟩
  | cut i =>
    simp only [collectStep, hpc] at hlist ⊢
    cases hback : s.collector.back with
    | none =>
      simp only [hback, hpc] at hlist ⊢
      exact .inl ⟨hlist, trivial⟩
    | some y =>
      simp only [hback] at hlist ⊢
      exact .inl ⟨hlist, trivial⟩
  | advance i =>
    simp only [collectStep, hpc, State.setCollector] at hlist ⊢
    refine .inl ⟨?_, trivial⟩
    split at hlist <;> exact hlist
  | free i =>
    simp only [collectStep, hpc] at hlist ⊢
    cases hback : s.collector.back with
    | none =>
      simp only [hback, hpc] at hlist ⊢
      exact .inl ⟨hlist, trivial⟩
    | some y =>
      simp only [hback] at hlist ⊢
      exact .inl ⟨hlist, trivial⟩
  | done =>
    simp only [collectStep, hpc] at hlist
    cases hlist

/-- Only the collector's `free` frees, and it frees what it has just passed. -/
theorem freed_collectStep (hfreed : (collectStep s).freed x = true) :
    s.freed x = true ∨ ∃ i, s.collector.pc = .free i ∧ s.collector.back = some x := by
  cases hpc : s.collector.pc with
  | visit i =>
    simp only [collectStep, hpc] at hfreed
    split at hfreed <;> [skip; split at hfreed] <;> exact .inl hfreed
  | cut i =>
    simp only [collectStep, hpc] at hfreed
    split at hfreed <;> exact .inl hfreed
  | free i =>
    simp only [collectStep, hpc] at hfreed
    cases hback : s.collector.back with
    | none =>
      simp only [hback] at hfreed
      exact .inl hfreed
    | some y =>
      simp only [hback] at hfreed
      by_cases hxy : x = y
      · subst hxy
        exact .inr ⟨i, rfl, rfl⟩
      · rw [Function.update_of_ne hxy] at hfreed
        exact .inl hfreed
  | _ =>
    simp only [collectStep, hpc] at hfreed
    exact .inl hfreed

theorem collector_effect_of_ne (hne : e ≠ .collect) :
    (effect s e).collector = s.collector ∧ (effect s e).freed = s.freed := by
  by_cases hinsert : ∃ i, e = .insert i
  · obtain ⟨i, rfl⟩ := hinsert
    exact ⟨rfl, rfl⟩
  · push Not at hinsert
    obtain ⟨-, hfreed, -, hcollector⟩ := memory_effect (s := s) hinsert hne
    exact ⟨hcollector, hfreed⟩

/-- A threshold never exceeds the `minimum` of its list. -/
theorem CollectorOk.threshold_le (h : CollectorOk hist s)
    (hlist : s.collector.pc.workingList = some p) : s.collector.minimum ≤ (s.queue p).minimum := by
  simp only [CollectorOk] at h
  cases hpc : s.collector.pc <;> rw [hpc] at hlist <;> simp only [hpc] at h <;> cases hlist
  case readHead => exact h.2
  all_goals exact h.1

/-! ### Steps and runs -/

/-- The node an unregistered reader holds is not freed, and a threshold for its list is not above
it. -/
def Spared (s : State n) (r : Fin n) : Prop :=
  ∀ p, HoldsUnregistered s r p → ∃ x, (s.updater r).cursorSinglyNode = some x ∧ s.freed x = false ∧
    (s.collector.pc.workingList = some p → s.collector.minimum ≤ (s.heap x).version)

theorem Spared.collect (hspared : Spared s r) (h : Inv hist s)
    (hok : CursorOk hist s (s.updater r)) (hstep : Step s .collect s')
    (hcondition : SparesHeld s .collect) : Spared s' r := by
  have heq : s' = collectStep s := hstep.2
  have hsame : s'.updater = s.updater := by
    rw [heq]
    exact updater_collectStep
  intro p hholds
  rw [HoldsUnregistered, hsame] at hholds
  obtain ⟨x, hcursor, hlive, hthreshold⟩ := hspared p hholds
  obtain ⟨x', hcursor', hmem, _⟩ := hok hholds.1
  obtain rfl : x = x' := Option.some.inj (hcursor.symm.trans hcursor')
  rw [hholds.2.2] at hmem
  rw [hsame]
  refine ⟨x, hcursor, ?_, fun hlist => ?_⟩
  · by_contra hfreed
    rw [heq, Bool.not_eq_false] at hfreed
    rcases freed_collectStep hfreed with hfreed | ⟨i, hpc, hback⟩
    · exact absurd (hlive.symm.trans hfreed) Bool.false_ne_true
    · have hcollector := h.collector
      simp only [CollectorOk, hpc] at hcollector
      obtain ⟨_, _, ⟨b, hb, hbmem, hlt⟩, _⟩ := hcollector
      obtain rfl : b = x := Option.some.inj (hb.symm.trans hback)
      obtain rfl := h.lists.owner i p b hbmem hmem
      rw [hpc] at hthreshold
      exact absurd (hthreshold rfl) (not_le.mpr hlt)
  · rw [version_step h hstep hmem]
    rw [heq] at hlist ⊢
    rcases collectStep_threshold hlist with ⟨hlist, hminimum⟩ | ⟨hpc, hminimum⟩ <;> rw [hminimum]
    · exact hthreshold hlist
    · exact hcondition p hpc r hholds x hcursor

theorem Spared.step_self (hspared : Spared s r) (h : Inv hist s) (hok : CursorOk hist s (s.updater r))
    (hstep : Step s e s') (hself : e.thread = some r) : Spared s' r := by
  intro p hholds
  obtain ⟨hcursor, hactive, hpicked⟩ := hholds
  rcases holdsCursor_step hstep hself hcursor with rfl | rfl | rfl | ⟨y, rfl⟩ <;>
    obtain ⟨henabled, rfl⟩ := hstep
  · rw [effect, setUpdater_updater_self] at hactive hpicked ⊢
    refine ⟨_, rfl, h.head_not_freed _, fun hlist => ?_⟩
    rw [← hpicked] at hlist
    exact (h.collector.threshold_le hlist).trans (h.minimum_le_head _)
  · rw [effect, setUpdater_updater_self] at hactive hpicked ⊢
    exact hspared p ⟨by rw [show (s.updater r).pc = _ from henabled]; rfl, hactive, hpicked⟩
  · obtain ⟨x, hsome, _, hsearch, _⟩ := hok (by rw [henabled.1]; rfl)
    have hkept := (quiet_searchStep henabled.1).registration r
      (by rw [State.InFlight, henabled.1]; rfl)
    rw [effect, hkept.1, hsearch henabled.1] at hactive
    cases hactive
  · rw [effect, setUpdater_updater_self] at hactive hpicked ⊢
    exact hspared p ⟨by rw [henabled.1]; rfl, hactive, hpicked⟩

theorem Spared.step (hspared : Spared s r) (h : Inv hist s) (hok : CursorOk hist s (s.updater r))
    (hstep : Step s e s') (hcondition : SparesHeld s e) : Spared s' r := by
  by_cases hcollect : e = .collect
  · subst hcollect
    exact hspared.collect h hok hstep hcondition
  by_cases hself : e.thread = some r
  · exact hspared.step_self h hok hstep hself
  · obtain ⟨hcollector, hfreed⟩ := collector_effect_of_ne (s := s) hcollect
    rw [← hstep.2] at hcollector hfreed
    have hsame : s'.updater r = s.updater r := by
      rw [hstep.2]
      exact updater_effect_of_ne hself
    intro p hholds
    rw [HoldsUnregistered, hsame] at hholds
    obtain ⟨x, hcursor, hlive, hthreshold⟩ := hspared p hholds
    obtain ⟨x', hcursor', hmem, _⟩ := hok hholds.1
    obtain rfl : x = x' := Option.some.inj (hcursor.symm.trans hcursor')
    rw [hsame, hfreed, hcollector]
    refine ⟨x, hcursor, hlive, ?_⟩
    rw [version_step h hstep hmem]
    exact hthreshold

/-- Thread `0` holds the head of idle thread `1` while the collector makes its round. -/
def sparedReader : List (Event 2) :=
  [.testRun 0, .pick 0 1, .enter 0, .readHead 0] ++ List.replicate 9 .collect

/-- Thread `0` picks idle thread `1` and reads its head. Thread `1` then makes an update and starts
another, and thread `2` registers with it twice; when it leaves the second time, `minimum` of thread
`1`'s queue passes the node thread `0` still holds. The collector's next round frees it. -/
def overtakenReader : List (Event 3) :=
  [.testRun 0, .pick 0 1, .enter 0, .readHead 0, .readOwn 0,
    .testRun 1, .pick 1 2, .enter 1,
    .testRun 2, .pick 2 1, .enter 2,
    .readHead 1, .readOwn 1, .readA 1 5, .readAAgain 1 5, .insert 1, .leave 1, .countUp 1,
    .testRun 1, .pick 1 0, .enter 1,
    .readHead 2, .readOwn 2, .search 2, .search 2, .readA 2 5, .readAAgain 2 5, .insert 2, .leave 2,
    .countUp 2,
    .testRun 2, .pick 2 1, .enter 2, .readHead 2, .readOwn 2, .search 2, .readA 2 10,
    .readAAgain 2 10, .insert 2, .leave 2] ++ List.replicate 15 .collect

end Multicore.Mvcc
