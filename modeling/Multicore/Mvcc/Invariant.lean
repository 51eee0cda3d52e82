import Multicore.Mvcc.Enter
import Multicore.Mvcc.Leave
import Multicore.Mvcc.Memory

/-!
# The invariant holds along every run

Each event keeps `Inv`: the critical sections and the linking in by the modules before, the
collector's actions and the quiet moves of an updater here. So it holds in every state of every run,
for the histories the run itself determines.
-/

namespace Multicore.Mvcc

variable {n : ℕ} {hist : Fin n → List Addr} {s s' : State n}

/-! ### The collector -/

/-- An action of the collector that only moves its locals. -/
theorem Inv.setCollector (h : Inv hist s) {c : Collector n}
    (hcollector : CollectorOk hist (s.setCollector c)) : Inv hist (s.setCollector c) :=
  h.of_updater_eq (.of_updater_eq rfl rfl rfl rfl (fun _ => rfl) rfl) rfl
    (h.lists.of_minimum_le rfl rfl rfl rfl fun _ => le_rfl) hcollector

theorem collectorOk_of_pc {c : Collector n} (hpc : c.pc = .testRun ∨ c.pc = .testVerbosing ∨
    c.pc = .done ∨ ∃ i, c.pc = .readMinimum i) : CollectorOk hist (s.setCollector c) := by
  rcases hpc with hpc | hpc | hpc | ⟨i, hpc⟩ <;> simp [CollectorOk, State.setCollector, hpc]

theorem firstList_cases : (CollectorPc.firstList : CollectorPc n) = .testRun ∨
    ∃ i, (CollectorPc.firstList : CollectorPc n) = .readMinimum i := by
  unfold CollectorPc.firstList
  split
  · exact .inr ⟨_, rfl⟩
  · exact .inl rfl

theorem nextList_cases (i : Fin n) : CollectorPc.nextList i = .testRun ∨
    ∃ j, CollectorPc.nextList i = .readMinimum j := by
  unfold CollectorPc.nextList
  split
  · exact .inr ⟨_, rfl⟩
  · exact .inl rfl

/-- A node that is still linked in front of a node below the threshold is the collector's to take. -/
theorem Lists.version_lt_of_link (h : Lists hist s) {i : Fin n} {a b : Addr} {threshold : ℤ}
    (ha : a ∈ hist i) (hlink : (s.heap a).link = some b)
    (hlt : ((s.heap a).version : ℤ) < threshold) :
    b ∈ hist i ∧ ((s.heap b).version : ℤ) < threshold := by
  have hab := h.consecutive_of_link ha hlink
  have hlower : (s.heap b).version < (s.heap a).version := hab.rel (h.sorted i)
  exact ⟨hab.mem_right, lt_trans (by exact_mod_cast hlower) hlt⟩

theorem Inv.collect_visit (h : Inv hist s) {i : Fin n} (hpc : s.collector.pc = .visit i) :
    Inv hist (collectStep s) := by
  have hok := h.collector
  simp only [CollectorOk, hpc] at hok
  simp only [collectStep, hpc]
  cases htmp : s.collector.tmp with
  | none =>
    apply h.setCollector
    apply collectorOk_of_pc
    rcases nextList_cases i with hnext | hnext
    · exact .inl hnext
    · exact .inr (.inr (.inr hnext))
  | some a =>
    obtain ⟨hmem, hflag, hback⟩ := hok.2 a htmp
    by_cases hcut : s.collector.deleteFlag = false ∧ ((s.heap a).version : ℤ) < s.collector.minimum
    · simp only [if_pos hcut]
      apply h.setCollector
      have hback := hback hcut.1
      cases hb : s.collector.back with
      | none =>
        simp only [hb] at hback
        exact absurd hback (not_le.mpr hcut.2)
      | some b =>
        simp only [hb] at hback
        exact ⟨hok.1, rfl, a, b, rfl, rfl, hback, hcut.2⟩
    · simp only [if_neg hcut]
      apply h.setCollector
      exact ⟨hok.1, a, rfl, hmem, hflag⟩

theorem Inv.collect_cut (h : Inv hist s) {i : Fin n} (hpc : s.collector.pc = .cut i) :
    Inv hist (collectStep s) := by
  have hok := h.collector
  simp only [CollectorOk, hpc] at hok
  obtain ⟨hle, hflag, a, b, htmp, hback, hab, hlt⟩ := hok
  rw [collectStep_cut hpc hback]
  refine h.of_updater_eq (.of_updater_eq rfl rfl rfl rfl cutBelow_version rfl) rfl
    (h.lists.cutBelow hab (lt_of_lt_of_le hlt hle)) ⟨hle, a, htmp, hab.mem_right, fun _ => ?_⟩
  rw [cutBelow_version]
  exact hlt

theorem Inv.collect_advance (h : Inv hist s) {i : Fin n} (hpc : s.collector.pc = .advance i) :
    Inv hist (collectStep s) := by
  have hok := h.collector
  simp only [CollectorOk, hpc] at hok
  obtain ⟨hle, a, htmp, hmem, hlt⟩ := hok
  simp only [collectStep, hpc, htmp]
  apply h.setCollector
  by_cases hflag : s.collector.deleteFlag = true
  · simp only [hflag, if_true]
    exact ⟨hle, rfl, ⟨a, rfl, hmem, hlt hflag⟩, fun b hlink =>
      h.lists.version_lt_of_link hmem hlink (hlt hflag)⟩
  · simp only [hflag]
    refine ⟨hle, fun b hlink => ?_⟩
    have hab := h.lists.consecutive_of_link hmem hlink
    exact ⟨hab.mem_right, fun htrue => absurd htrue Bool.false_ne_true, fun _ => hab⟩

theorem Inv.collect_free (h : Inv hist s) {i : Fin n} (hpc : s.collector.pc = .free i) :
    Inv hist (collectStep s) := by
  have hok := h.collector
  simp only [CollectorOk, hpc] at hok
  obtain ⟨hle, hflag, ⟨b, hback, hmem, hlt⟩, htmp⟩ := hok
  rw [collectStep_free hpc hback]
  refine h.of_updater_eq (.of_updater_eq rfl rfl rfl rfl (fun _ => rfl) rfl) rfl
    (h.lists.freeNode hmem (lt_of_lt_of_le hlt hle)) ⟨hle, fun a ha => ?_⟩
  exact ⟨(htmp a ha).1, fun _ => (htmp a ha).2, fun hfalse => absurd (hfalse.symm.trans hflag)
    Bool.false_ne_true⟩

theorem Inv.collect (h : Inv hist s) : Inv hist (collectStep s) := by
  cases hpc : s.collector.pc with
  | testRun =>
    simp only [collectStep, hpc]
    apply h.setCollector
    apply collectorOk_of_pc
    by_cases hrun : s.couldThreadRun = true
    · exact .inr (.inl (if_pos hrun))
    · exact .inr (.inr (.inl (if_neg hrun)))
  | testVerbosing =>
    simp only [collectStep, hpc]
    apply h.setCollector
    apply collectorOk_of_pc
    by_cases hverbosing : s.isVerbosing = true
    · exact .inl (if_pos hverbosing)
    · rcases firstList_cases with hfirst | ⟨i, hfirst⟩
      · exact .inl ((if_neg hverbosing).trans hfirst)
      · exact .inr (.inr (.inr ⟨i, (if_neg hverbosing).trans hfirst⟩))
  | readMinimum i =>
    simp only [collectStep, hpc]
    apply h.setCollector
    exact ⟨rfl, le_rfl⟩
  | readHead i =>
    have hok := h.collector
    simp only [CollectorOk, hpc] at hok
    simp only [collectStep, hpc]
    apply h.setCollector
    refine ⟨hok.2, fun a ha => ?_⟩
    obtain rfl := Option.some.inj ha
    refine ⟨h.lists.head_mem i, fun hflag => absurd hflag Bool.false_ne_true, fun _ => ?_⟩
    simp only [hok.1]
    exact hok.2.trans (h.minimum_le_head i)
  | visit i => exact h.collect_visit hpc
  | cut i => exact h.collect_cut hpc
  | advance i => exact h.collect_advance hpc
  | free i => exact h.collect_free hpc
  | done =>
    simp only [collectStep, hpc]
    exact h

/-! ### The updaters -/

theorem updater_collectStep : (collectStep s).updater = s.updater := by
  obtain ⟨link, freed, c, heq⟩ := collectStep_frame s
  rw [heq]
  rfl

theorem Tracked.step {e : Event n} (h : Tracked s) (hstep : Step s e s') : Tracked s' := by
  obtain ⟨henabled, rfl⟩ := hstep
  have hquiet := fun hquiet : e.isQuiet = true => quiet_of_enabled hquiet henabled
  cases e with
  | testRun i =>
    refine h.setUpdater (hquiet rfl) fun henter => ?_
    by_cases hrun : s.couldThreadRun = true <;> simp [hrun] at henter
  | pick i p =>
    have hquiet := hquiet rfl
    by_cases hverbosing : s.isVerbosing = true
    · simp only [effect, if_pos hverbosing] at hquiet ⊢
      exact h.setUpdater hquiet fun henter => by cases henter
    · simp only [effect, if_neg hverbosing] at hquiet ⊢
      exact h.setUpdater hquiet fun _ => henabled.2
  | enter i => exact h.enter henabled
  | readHead i => exact h.setUpdater (hquiet rfl) fun henter => by cases henter
  | readOwn i =>
    refine h.setUpdater (hquiet rfl) fun henter => ?_
    by_cases hactive : (s.updater i).isThreadActive = true <;> simp [hactive] at henter
  | search i =>
    have hquiet := hquiet rfl
    have hpc := henabled.1
    obtain ⟨a, hcursor⟩ := Option.ne_none_iff_exists'.mp henabled.2
    by_cases hlt : (s.heap a).version < (s.updater i).activeThreadVersion
    · rw [effect, searchStep_stop hcursor hlt] at hquiet ⊢
      exact h.setUpdater hquiet fun henter => by cases henter
    · rw [effect, searchStep_follow hcursor hlt] at hquiet ⊢
      exact h.setUpdater hquiet fun henter => absurd (hpc.symm.trans henter) (by decide)
  | readA i x => exact h.setUpdater (hquiet rfl) fun henter => by cases henter
  | readAAgain i x => exact h.setUpdater (hquiet rfl) fun henter => by cases henter
  | insert i => exact h.insert henabled
  | leave i => exact h.leave
  | countUp i =>
    have hmove : Tracked
        (s.setUpdater i { s.updater i with pc := .testRun, captureActiveList := [] }) := by
      refine h.setUpdater (quiet_outside ?_ rfl rfl) fun henter => by cases henter
      rw [show (s.updater i).pc = _ from henabled]
      rfl
    exact ⟨⟨hmove.active.mem_iff, hmove.active.nodup⟩, hmove.picked_ne⟩
  | collect => exact h.of_updater_eq (hquiet rfl) updater_collectStep
  | setVerbosing value => exact h.of_updater_eq (hquiet rfl) rfl
  | stopRun => exact h.of_updater_eq (hquiet rfl) rfl

/-- The memory of the lists and the collector are out of an updater's reach, apart from linking a node
in. -/
theorem memory_effect {e : Event n} (hinsert : ∀ i, e ≠ .insert i) (hcollect : e ≠ .collect) :
    (effect s e).heap = s.heap ∧ (effect s e).freed = s.freed ∧
      (effect s e).nextAddr = s.nextAddr ∧ (effect s e).collector = s.collector := by
  cases e with
  | pick i p =>
    obtain ⟨u, heq⟩ := pick_frame s i p
    rw [heq]
    exact ⟨rfl, rfl, rfl, rfl⟩
  | search i =>
    obtain ⟨u, heq⟩ := searchStep_frame s i
    rw [effect, heq]
    exact ⟨rfl, rfl, rfl, rfl⟩
  | insert i => exact absurd rfl (hinsert i)
  | collect => exact absurd rfl hcollect
  | _ => exact ⟨rfl, rfl, rfl, rfl⟩

theorem singlyList_effect {e : Event n} (hinsert : ∀ i, e ≠ .insert i) :
    (effect s e).singlyList = s.singlyList := by
  cases e with
  | insert i => exact absurd rfl (hinsert i)
  | pick i p =>
    obtain ⟨u, heq⟩ := pick_frame s i p
    rw [heq]
    rfl
  | search i =>
    obtain ⟨u, heq⟩ := searchStep_frame s i
    rw [effect, heq]
    rfl
  | collect =>
    obtain ⟨link, freed, c, heq⟩ := collectStep_frame s
    rw [effect, heq]
    rfl
  | _ => rfl

/-! ### Steps and runs -/

theorem Inv.quiet_step {e : Event n} (h : Inv hist s) (hquiet : e.isQuiet = true)
    (hcollect : e ≠ .collect) (henabled : Enabled s e) : Inv hist (effect s e) := by
  have hsame := quiet_of_enabled hquiet henabled
  have hinsert : ∀ i, e ≠ .insert i := by
    rintro i rfl
    cases hquiet
  obtain ⟨hheap, hfreed, hnext, hcollector⟩ := memory_effect (s := s) hinsert hcollect
  have hminimum : ∀ p, (s.queue p).minimum ≤ ((effect s e).queue p).minimum := fun p => by
    rw [hsame.queue]
  exact hsame.inv h (h.lists.of_minimum_le hsame.singlyList hheap hfreed hnext hminimum)
    (h.collector.of_minimum_le hheap hcollector hminimum) (h.tracked.step ⟨henabled, rfl⟩)

/-- Every event keeps the invariant, for the history it leaves. -/
theorem Inv.step {e : Event n} (h : Inv hist s) (hstep : Step s e s') : Inv (record hist s e) s' := by
  obtain ⟨henabled, rfl⟩ := hstep
  cases e with
  | enter i => exact h.enter henabled
  | insert i => exact h.insert henabled
  | leave i => exact h.leave henabled
  | collect => exact h.collect
  | _ => exact h.quiet_step rfl (by simp) henabled

theorem initial_heap (a b : Fin n → BitVec 32) (i : Fin n) :
    (initial a b).heap i.val = ⟨a i, b i, 0, none⟩ :=
  dif_pos i.isLt

theorem queueOk_initial (a b : Fin n → BitVec 32) (p : Fin n) :
    QueueOk (history []) (initial a b) p [] := by
  have htaken : Taken (history []) (initial a b) p 0 := .inl rfl
  refine ⟨Queue.wellFormed_createQueue, rfl, .nil, by simp, fun v => ?_, by simp, htaken, by simp,
    le_rfl, ⟨p.val, List.mem_singleton_self _, ?_⟩, .inr rfl⟩
  · have hnone : readers (initial a b) p v = ∅ := by
      ext r
      simp [mem_readers, Registered, State.InFlight, initial, initialUpdater, UpdaterPc.inFlight]
    rw [hnone]
    exact Nat.zero_le _
  · rw [initial_heap]
    rfl

theorem inv_initial (a b : Fin n → BitVec 32) : Inv (history []) (initial a b) := by
  have hpc : ∀ i, ((initial a b).updater i).pc = .testRun := fun _ => rfl
  have hmem : ∀ (p : Fin n) (x : Addr), x ∈ history [] p → x = p.val := fun p x hx =>
    List.mem_singleton.mp hx
  refine ⟨⟨fun p => rfl, fun p => List.pairwise_singleton _ _, fun p x hx => ?_, fun p q x hxp hxq => ?_,
    fun p x y hxy => ?_, fun p x hx => ?_, fun p x _ hfree => ?_, fun x _ => rfl⟩,
    ⟨fun p => le_rfl, fun p hp => ?_, fun p hp => ?_, fun p _ => ?_⟩, fun i hi => ?_,
    ⟨fun i v => ?_, List.nodup_nil⟩, ⟨fun _ => [], queueOk_initial a b⟩, trivial⟩
  · rw [hmem p x hx]
    exact p.isLt
  · exact Fin.ext ((hmem p x hxp).symm.trans (hmem q x hxq))
  · rw [show history [] p = [p.val] from rfl, consecutive_cons] at hxy
    rcases hxy with ⟨_, hnone⟩ | hnil
    · cases hnone
    · exact absurd hnil not_consecutive_nil
  · obtain rfl : p.val = x := Option.some.inj hx
    rw [initial_heap]
    exact ⟨rfl, rfl⟩
  · cases hfree
  · rw [State.InFlight, hpc] at hp
    cases hp
  · rw [State.BeforeInsert, hpc] at hp
    cases hp
  · rw [show (initial a b).singlyList p = p.val from rfl, initial_heap]
    rfl
  · rw [State.InFlight, hpc] at hi
    rcases hi with hi | hi <;> cases hi
  · rw [State.InFlight, hpc]
    simp [initial, UpdaterPc.inFlight]

theorem nextAddr_effect (e : Event n) :
    (effect s e).nextAddr = s.nextAddr + insertions [e] := by
  cases e with
  | pick i p =>
    obtain ⟨u, heq⟩ := pick_frame s i p
    rw [heq]
    rfl
  | search i =>
    obtain ⟨u, heq⟩ := searchStep_frame s i
    rw [effect, heq]
    rfl
  | collect =>
    obtain ⟨link, freed, c, heq⟩ := collectStep_frame s
    rw [effect, heq]
    rfl
  | _ => rfl

theorem nextAddr_of_start {start : State n} {trace : List (Event n)} (hstart : start.nextAddr = n)
    (hrun : Run Step start trace s) : s.nextAddr = n + insertions trace := by
  induction hrun with
  | nil => exact hstart
  | @cons trace s s' e _ hstep ih =>
    rw [hstep.2, nextAddr_effect, ih]
    cases e <;> simp [insertions, Nat.add_assoc]

theorem nextAddr_of_run {a b : Fin n → BitVec 32} {trace : List (Event n)}
    (hrun : Run Step (initial a b) trace s) : s.nextAddr = n + insertions trace :=
  nextAddr_of_start rfl hrun

/-- The invariant holds in every state of every run. -/
theorem inv_of_run {a b : Fin n → BitVec 32} {trace : List (Event n)}
    (hrun : Run Step (initial a b) trace s) : Inv (history trace) s := by
  induction hrun with
  | nil => exact inv_initial a b
  | @cons trace s s' e hrun hstep ih =>
    rw [history_cons e (nextAddr_of_run hrun)]
    exact ih.step hstep

end Multicore.Mvcc
