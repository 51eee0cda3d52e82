import Multicore.Mvcc.Pass

/-!
# A node that can still be reached is not freed

The collector frees what lies behind the link it cut, and nobody ever puts a link back. So a freed
node has a cut in front of it, and whoever walks from the head stops at that cut.
-/

namespace Multicore.Mvcc

variable {n : ℕ} {hist : Fin n → List Addr} {s s' : State n} {i : Fin n} {x : Addr}

/-- Somewhere in front of `x` a link of its list is cut. -/
def Severed (l : List Addr) (s : State n) (x : Addr) : Prop :=
  ∃ a b, Consecutive l a b ∧ (s.heap a).link = none ∧ (s.heap x).version ≤ (s.heap b).version

/-- What the collector has freed, and what it is about to pass or free, is severed. -/
structure SeveredOk (hist : Fin n → List Addr) (s : State n) : Prop where
  freed : ∀ p, ∀ x ∈ hist p, s.freed x = true → Severed (hist p) s x
  tmp : ∀ i x, (s.collector.pc = .visit i ∨ s.collector.pc = .advance i ∨ s.collector.pc = .free i) →
    s.collector.deleteFlag = true → s.collector.tmp = some x → Severed (hist i) s x
  back : ∀ i x, s.collector.pc = .free i → s.collector.back = some x → Severed (hist i) s x

/-- A walk from the head never meets a severed node. -/
theorem Lists.not_severed (h : Lists hist s) {nodes : List Addr}
    (hvisits : Visits (fun a => (s.heap a).link) (some (s.singlyList i)) nodes) (hx : x ∈ nodes) :
    ¬ Severed (hist i) s x := by
  rintro ⟨a, b, hab, hnone, hle⟩
  obtain ⟨front, rest, hsplit, hfront, -⟩ := h.exists_visits i
  obtain rfl := hfront.unique hvisits
  have hsorted := hsplit ▸ h.sorted i
  have hlater : ∀ y ∈ rest, (s.heap y).version < (s.heap x).version :=
    (List.pairwise_append.mp hsorted).2.2 x hx
  have hb : b ∈ rest := by
    have hmem := hab.mem_right
    rw [hsplit] at hmem
    refine (List.mem_append.mp hmem).resolve_left fun hbfront => ?_
    -- within the walk the link in front of `b` is there
    rcases head_or_consecutive hbfront with hhead | ⟨c, hcb⟩
    · have hheadl : (hist i).head? = some b := by
        rw [hsplit, List.head?_append, hhead]
        rfl
      exact hab.ne_head (h.nodup i) hheadl
    · have hcb' : Consecutive (hist i) c b := hsplit ▸ hcb.trans (List.infix_append' [] front rest)
      obtain rfl := hab.left_unique (h.nodup i) hcb'
      have hlink := (visits_iff.mp hfront).2.1 a b hcb
      simp [hnone] at hlink
  exact absurd hle (not_le.mpr (hlater b hb))

/-- So every node of the walk is allocated. -/
theorem SeveredOk.not_freed (h : SeveredOk hist s) (hlists : Lists hist s) {nodes : List Addr}
    (hvisits : Visits (fun a => (s.heap a).link) (some (s.singlyList i)) nodes) (hx : x ∈ nodes) :
    s.freed x = false := by
  rw [Bool.eq_false_iff]
  intro hfreed
  obtain ⟨front, rest, hsplit, hfront, -⟩ := hlists.exists_visits i
  obtain rfl := hfront.unique hvisits
  have hmem : x ∈ hist i := by
    rw [hsplit]
    exact List.mem_append_left _ hx
  exact hlists.not_severed hvisits hx (h.freed i x hmem hfreed)

/-! ### Every step keeps it -/

theorem Severed.congr {l : List Addr} (h : Severed l s x) (hheap : s'.heap = s.heap) :
    Severed l s' x := by
  obtain ⟨a, b, hab, hnone, hle⟩ := h
  exact ⟨a, b, hab, hheap ▸ hnone, hheap ▸ hle⟩

theorem Severed.linkedIn {j : Fin n} (h : Severed (hist i) s x) (hlists : Lists hist s)
    (hx : x ∈ hist i) : Severed (extend hist j s.nextAddr i) (linkedIn s j) x := by
  obtain ⟨a, b, hab, hnone, hle⟩ := h
  refine ⟨a, b, consecutive_extend.mpr (.inr hab), ?_, ?_⟩
  · rw [hlists.linkedIn_heap hab.mem_left, hnone]
  · rw [hlists.linkedIn_heap hx, hlists.linkedIn_heap hab.mem_right]
    exact hle

theorem Severed.cutBelow {l : List Addr} {b : Addr} {c : Collector n} (h : Severed l s x) :
    Severed l (cutBelow s b c) x := by
  obtain ⟨a, y, hay, hnone, hle⟩ := h
  refine ⟨a, y, hay, ?_, by simpa only [cutBelow_version] using hle⟩
  rw [cutBelow_link]
  split
  · rfl
  · exact hnone

theorem SeveredOk.linkedIn {j : Fin n} (h : SeveredOk hist s) (hinv : Inv hist s) :
    SeveredOk (extend hist j s.nextAddr) (linkedIn s j) := by
  have hlists := hinv.lists
  refine ⟨fun p x hx hfreed => ?_, fun i x hpc hflag htmp => ?_, fun i x hpc hback => ?_⟩
  · rcases mem_extend.mp hx with ⟨-, rfl⟩ | hx
    · rw [show (Mvcc.linkedIn s j).freed = s.freed from rfl, hlists.unallocated _ le_rfl] at hfreed
      cases hfreed
    · exact (h.freed p x hx hfreed).linkedIn hlists hx
  · refine (h.tmp i x hpc hflag htmp).linkedIn hlists ?_
    exact hinv.collector.tmp_mem (hpc.imp_right .inr) htmp
  · refine (h.back i x hpc hback).linkedIn hlists ?_
    have hok := hinv.collector
    simp only [CollectorOk, show s.collector.pc = .free i from hpc] at hok
    obtain ⟨-, -, ⟨b, hb, hmem, -⟩, -⟩ := hok
    exact Option.some.inj (hb.symm.trans hback) ▸ hmem

/-- An action of the collector that only moves its locals, to a place where it has nothing severed at
hand. -/
theorem SeveredOk.setCollector {c : Collector n} (h : SeveredOk hist s)
    (hfree : ∀ i, c.pc ≠ .free i)
    (htmp : ∀ i, c.pc = .visit i ∨ c.pc = .advance i → c.deleteFlag = true → ∀ x, c.tmp = some x →
      Severed (hist i) s x) : SeveredOk hist (s.setCollector c) := by
  refine ⟨h.freed, fun i x hpc hflag hx => ?_, fun i x hpc => absurd hpc (hfree i)⟩
  rcases hpc with hpc | hpc | hpc
  · exact htmp i (.inl hpc) hflag x hx
  · exact htmp i (.inr hpc) hflag x hx
  · exact absurd hpc (hfree i)

theorem SeveredOk.collect_visit (h : SeveredOk hist s) (hpc : s.collector.pc = .visit i) :
    SeveredOk hist (collectStep s) := by
  simp only [collectStep, hpc]
  cases htmp : s.collector.tmp with
  | none =>
    rcases nextList_cases i with hnext | ⟨k, hnext⟩ <;>
      exact h.setCollector (by simp [hnext]) (by simp [hnext])
  | some a =>
    by_cases hcut : s.collector.deleteFlag = false ∧ ((s.heap a).version : ℤ) < s.collector.minimum
    · simp only [if_pos hcut]
      exact h.setCollector (by simp) (by simp)
    · simp only [if_neg hcut]
      refine h.setCollector (by simp) fun j hj hflag x hx => ?_
      obtain rfl : i = j := by simpa using hj
      exact h.tmp i x (.inl hpc) hflag (htmp.trans hx)

theorem SeveredOk.collect_cut (h : SeveredOk hist s) (hinv : Inv hist s)
    (hpc : s.collector.pc = .cut i) : SeveredOk hist (collectStep s) := by
  have hok := hinv.collector
  simp only [CollectorOk, hpc] at hok
  obtain ⟨-, -, a, b, htmp, hback, hba, -⟩ := hok
  rw [collectStep_cut hpc hback]
  refine ⟨fun p x hx hfreed => (h.freed p x hx hfreed).cutBelow, fun j x hj _ hx => ?_, fun j x hj => ?_⟩
  · obtain rfl : i = j := by simpa [Mvcc.cutBelow] using hj
    obtain rfl : a = x := Option.some.inj (htmp.symm.trans hx)
    exact ⟨b, a, hba, by rw [cutBelow_link, if_pos rfl], le_rfl⟩
  · simp [Mvcc.cutBelow] at hj

theorem SeveredOk.collect_advance (h : SeveredOk hist s) (hinv : Inv hist s)
    (hpc : s.collector.pc = .advance i) : SeveredOk hist (collectStep s) := by
  have hok := hinv.collector
  simp only [CollectorOk, hpc] at hok
  obtain ⟨-, a, htmp, hmem, -⟩ := hok
  simp only [collectStep, hpc, htmp]
  by_cases hflag : s.collector.deleteFlag = true
  · simp only [if_pos hflag]
    have hsevered := h.tmp i a (.inr (.inl hpc)) hflag htmp
    refine ⟨h.freed, fun j x hj _ hx => ?_, fun j x hj hx => ?_⟩
    · obtain rfl : i = j := by simpa [State.setCollector] using hj
      obtain ⟨c, d, hcd, hnone, hle⟩ := hsevered
      have hlower : (s.heap x).version < (s.heap a).version :=
        (hinv.lists.consecutive_of_link hmem hx).rel (hinv.lists.sorted i)
      exact ⟨c, d, hcd, hnone, hlower.le.trans hle⟩
    · obtain rfl : i = j := by simpa [State.setCollector] using hj
      obtain rfl : a = x := Option.some.inj hx
      exact hsevered
  · simp only [if_neg hflag]
    exact h.setCollector (by simp) fun j hj htrue => absurd htrue hflag

theorem SeveredOk.collect_free (h : SeveredOk hist s) (hinv : Inv hist s)
    (hpc : s.collector.pc = .free i) : SeveredOk hist (collectStep s) := by
  have hok := hinv.collector
  simp only [CollectorOk, hpc] at hok
  obtain ⟨-, -, ⟨b, hback, hmem, -⟩, -⟩ := hok
  rw [collectStep_free hpc hback]
  refine ⟨fun p x hx hfreed => ?_, fun j x hj hflag hx => ?_, fun j x hj => ?_⟩
  · by_cases hxb : x = b
    · subst hxb
      obtain rfl := hinv.lists.owner p i x hx hmem
      exact h.back p x hpc hback
    · exact h.freed p x hx (by simpa [freeNode, hxb] using hfreed)
  · obtain rfl : i = j := by simpa [freeNode] using hj
    exact h.tmp i x (.inr (.inr hpc)) hflag hx
  · simp [freeNode] at hj

theorem SeveredOk.collect (h : SeveredOk hist s) (hinv : Inv hist s) :
    SeveredOk hist (collectStep s) := by
  cases hpc : s.collector.pc with
  | testRun =>
    simp only [collectStep, hpc]
    by_cases hrun : s.couldThreadRun = true <;> exact h.setCollector (by simp [hrun]) (by simp [hrun])
  | testVerbosing =>
    simp only [collectStep, hpc]
    by_cases hverbosing : s.isVerbosing = true
    · exact h.setCollector (by simp [hverbosing]) (by simp [hverbosing])
    · rcases firstList_cases (n := n) with hfirst | ⟨k, hfirst⟩ <;>
        exact h.setCollector (by simp [hverbosing, hfirst]) (by simp [hverbosing, hfirst])
  | readMinimum i =>
    simp only [collectStep, hpc]
    exact h.setCollector (by simp) (by simp)
  | readHead i =>
    simp only [collectStep, hpc]
    exact h.setCollector (by simp) (by simp)
  | visit i => exact h.collect_visit hpc
  | cut i => exact h.collect_cut hinv hpc
  | advance i => exact h.collect_advance hinv hpc
  | free i => exact h.collect_free hinv hpc
  | done =>
    simp only [collectStep, hpc]
    exact h

theorem SeveredOk.step {e : Event n} (h : SeveredOk hist s) (hinv : Inv hist s) (hstep : Step s e s') :
    SeveredOk (record hist s e) s' := by
  obtain ⟨henabled, rfl⟩ := hstep
  rcases memory_cases hist s e with rfl | ⟨j, rfl⟩ | ⟨-, hsame, hheap, hfreed, hcollector⟩
  · exact h.collect hinv
  · exact h.linkedIn hinv
  · rw [hsame]
    refine ⟨fun p x hx hfree => ?_, fun i x => ?_, fun i x => ?_⟩
    · exact (h.freed p x hx (hfreed ▸ hfree)).congr hheap
    · rw [hcollector]
      exact fun hpc hflag htmp => (h.tmp i x hpc hflag htmp).congr hheap
    · rw [hcollector]
      exact fun hpc hback => (h.back i x hpc hback).congr hheap

theorem severedOk_of_run {a b : Fin n → BitVec 32} {trace : List (Event n)}
    (hrun : Run Step (initial a b) trace s) : SeveredOk (history trace) s := by
  induction hrun with
  | nil =>
    refine ⟨fun p x hx hfreed => ?_, fun i x hpc => ?_, fun i x hpc => ?_⟩
    · cases hfreed
    · rcases hpc with hpc | hpc | hpc <;> cases hpc
    · cases hpc
  | cons hrun hstep ih =>
    rw [history_cons _ (nextAddr_of_run hrun)]
    exact ih.step (inv_of_run hrun) hstep

end Multicore.Mvcc
