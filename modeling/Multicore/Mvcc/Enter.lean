import Multicore.Mvcc.Quiet

/-!
# The first critical section keeps the invariant

It hands out a version, captures the active list and registers the reader in the queue of the thread
it picked. It leaves the lists in memory alone, so what matters about it is the active list and that
queue.
-/

namespace Multicore.Mvcc

variable {n : ℕ} {hist : Fin n → List Addr} {s : State n} {i : Fin n}

/-! ### The capture -/

theorem captureActiveList_eq (activeList : List (ActiveNode n)) :
    captureActiveList activeList = activeList.reverse := by
  have hfold : ∀ capture, activeList.foldl
      (fun capture node => (⟨node.indexThread, node.version⟩ : ActiveNode n) :: capture) capture =
        activeList.reverse ++ capture := by
    induction activeList with
    | nil => intro capture; rfl
    | cons node rest ih =>
      intro capture
      rw [List.foldl_cons, ih, List.reverse_cons, List.append_assoc]
      rfl
  rw [captureActiveList, hfold, List.append_nil]

theorem findPicked_eq {capture : List (ActiveNode n)} {p : Fin n} {inFlight : Prop}
    [Decidable inFlight] {version : ℕ}
    (hmem : ∀ v, (⟨p, v⟩ : ActiveNode n) ∈ capture ↔ inFlight ∧ v = version) :
    findPicked capture p = if inFlight then some ⟨p, version⟩ else none := by
  unfold findPicked
  cases hfind : capture.find? (fun node => decide (node.indexThread = p)) with
  | none =>
    have hnone : ∀ node ∈ capture, ¬ node.indexThread = p := by simpa using hfind
    rw [if_neg]
    intro hflight
    exact hnone _ ((hmem version).mpr ⟨hflight, rfl⟩) rfl
  | some node =>
    have hindex : node.indexThread = p := by simpa using List.find?_some hfind
    have hnode := List.mem_of_find?_eq_some hfind
    obtain ⟨index, v⟩ := node
    subst hindex
    obtain ⟨hflight, rfl⟩ := (hmem v).mp hnode
    rw [if_pos hflight]

/-- The search of the capture finds the picked thread exactly when it is between its critical
sections, and then with its current version. -/
theorem findPicked_firstSection (version : ℕ) (h : Tracked s) {p : Fin n} (hne : p ≠ i) :
    findPicked (captureActiveList (insertGlobalActiveList s.activeList i version)) p =
      if s.InFlight p then some ⟨p, (s.updater p).currentVersion⟩ else none := by
  apply findPicked_eq
  intro v
  rw [captureActiveList_eq, List.mem_reverse, insertGlobalActiveList, List.mem_cons,
    ← h.active.mem_iff p v]
  refine or_iff_right fun heq => hne ?_
  exact congrArg ActiveNode.indexThread heq

/-! ### The first critical section -/

@[simp] theorem firstSection_updater_of_ne {j : Fin n} (hj : j ≠ i) :
    (firstSection s i).updater j = s.updater j :=
  Function.update_of_ne hj _ _

/-- The locals after the first critical section, by whether the picked thread was in flight. -/
theorem firstSection_updater_self (h : Tracked s) (hpc : (s.updater i).pc = .enter) :
    (firstSection s i).updater i =
      let p := (s.updater i).pickedThreadIndex
      { s.updater i with
        pc := .readHead
        currentVersion := s.atomicCounter + 1
        captureActiveList :=
          captureActiveList (insertGlobalActiveList s.activeList i (s.atomicCounter + 1))
        isThreadActive := decide (s.InFlight p)
        activeThreadVersion := if s.InFlight p then (s.updater p).currentVersion else 0 } := by
  have hfind := findPicked_firstSection (s.atomicCounter + 1) h
    (h.picked_ne i (.inl hpc))
  by_cases hflight : s.InFlight (s.updater i).pickedThreadIndex
  · rw [if_pos hflight] at hfind
    simp [firstSection, hfind, hflight]
  · rw [if_neg hflight] at hfind
    simp [firstSection, hfind, hflight]

theorem firstSection_queue (h : Tracked s) (hpc : (s.updater i).pc = .enter) :
    (firstSection s i).queue =
      let p := (s.updater i).pickedThreadIndex
      if s.InFlight p then
        Function.update s.queue p ((s.queue p).addRear (toInt (s.updater p).currentVersion))
      else s.queue := by
  have hfind := findPicked_firstSection (s.atomicCounter + 1) h
    (h.picked_ne i (.inl hpc))
  by_cases hflight : s.InFlight (s.updater i).pickedThreadIndex
  · rw [if_pos hflight] at hfind
    simp [firstSection, hfind, hflight]
  · rw [if_neg hflight] at hfind
    simp [firstSection, hfind, hflight]

/-- The queue of a thread that is not active, or was not picked, stays as it is. -/
theorem firstSection_queue_of_not (h : Tracked s) (hpc : (s.updater i).pc = .enter) {p : Fin n}
    (hp : ¬ ((s.updater i).pickedThreadIndex = p ∧ s.InFlight p)) :
    (firstSection s i).queue p = s.queue p := by
  rw [firstSection_queue h hpc]
  by_cases hflight : s.InFlight (s.updater i).pickedThreadIndex
  · have hne : p ≠ (s.updater i).pickedThreadIndex := fun heq => hp ⟨heq.symm, heq ▸ hflight⟩
    simp only [if_pos hflight, Function.update_of_ne hne]
  · simp only [if_neg hflight]

theorem firstSection_minimum (p : Fin n) :
    ((firstSection s i).queue p).minimum = (s.queue p).minimum ∧
      ((firstSection s i).queue p).deleteFront = (s.queue p).deleteFront := by
  simp only [firstSection]
  cases findPicked (captureActiveList (insertGlobalActiveList s.activeList i (s.atomicCounter + 1)))
      (s.updater i).pickedThreadIndex with
  | none => exact ⟨rfl, rfl⟩
  | some node =>
    by_cases hp : p = (s.updater i).pickedThreadIndex
    · subst hp
      simpa using Queue.addRear_minimum _ _
    · simp [hp]

theorem Lists.firstSection (h : Lists hist s) : Lists hist (firstSection s i) :=
  h.of_minimum_le rfl rfl rfl rfl fun p => (firstSection_minimum p).1.ge

theorem Versions.firstSection (h : Inv hist s) (hpc : (s.updater i).pc = .enter) :
    Versions hist (firstSection s i) := by
  have hself := firstSection_updater_self h.tracked hpc
  have hold : ∀ a ∈ hist i, (s.heap a).version < s.atomicCounter + 1 := fun a ha =>
    Nat.lt_succ_of_le ((h.versions.le_current h.lists ha).trans (h.versions.le_counter i))
  refine ⟨fun p => ?_, fun p => ?_, fun p => ?_, fun p => ?_⟩ <;> by_cases hp : p = i
  · subst hp
    rw [hself]
    exact le_rfl
  · rw [firstSection_updater_of_ne hp]
    exact (h.versions.le_counter p).trans (Nat.le_succ _)
  · subst hp
    intro _
    rw [hself]
    exact Nat.succ_pos _
  · unfold State.InFlight
    rw [firstSection_updater_of_ne hp]
    exact h.versions.pos p
  · subst hp
    intro _ a ha
    rw [hself]
    exact hold a ha
  · unfold State.BeforeInsert
    rw [firstSection_updater_of_ne hp]
    exact h.versions.pending p
  · subst hp
    intro hbefore
    exact absurd (by rw [State.BeforeInsert, hself]; rfl) hbefore
  · unfold State.BeforeInsert
    rw [firstSection_updater_of_ne hp]
    exact h.versions.settled p

theorem ActiveOk.firstSection (h : Tracked s) (hpc : (s.updater i).pc = .enter) :
    ActiveOk (firstSection s i) := by
  have hself := firstSection_updater_self h hpc
  have hidle : ¬ s.InFlight i := by simp [State.InFlight, hpc, UpdaterPc.inFlight]
  have hnotin : ∀ v, (⟨i, v⟩ : ActiveNode n) ∉ s.activeList := fun v hv =>
    hidle ((h.active.mem_iff i v).mp hv).1
  refine ⟨fun j v => ?_, ?_⟩
  · change _ ∈ (⟨i, s.atomicCounter + 1⟩ : ActiveNode n) :: s.activeList ↔ _
    rw [List.mem_cons]
    by_cases hj : j = i
    · subst hj
      simp only [hnotin, or_false, State.InFlight, hself, ActiveNode.mk.injEq, true_and]
      simp [UpdaterPc.inFlight]
    · simp only [ActiveNode.mk.injEq, hj, false_and, false_or, State.InFlight,
        firstSection_updater_of_ne hj]
      exact h.active.mem_iff j v
  · change (((⟨i, s.atomicCounter + 1⟩ : ActiveNode n) :: s.activeList).map _).Nodup
    rw [List.map_cons, List.nodup_cons]
    refine ⟨fun hmem => ?_, h.active.nodup⟩
    obtain ⟨⟨j, v⟩, hnode, rfl⟩ := List.mem_map.mp hmem
    exact hnotin v hnode

/-- The first critical section adds one registration at most: its own. -/
theorem registered_firstSection (h : Tracked s) (hpc : (s.updater i).pc = .enter) (r q : Fin n)
    (v : ℕ) : Registered (firstSection s i) r q v ↔ Registered s r q v ∨
      r = i ∧ s.InFlight q ∧ (s.updater i).pickedThreadIndex = q ∧
        (s.updater q).currentVersion = v := by
  have hself := firstSection_updater_self h hpc
  have hidle : ¬ s.InFlight i := by simp [State.InFlight, hpc, UpdaterPc.inFlight]
  by_cases hr : r = i
  · subst hr
    have hnot : ¬ Registered s r q v := fun hreg => hidle hreg.1
    have hentered : (firstSection s r).InFlight r := by rw [State.InFlight, hself]; rfl
    rw [or_iff_right hnot]
    simp only [true_and, Registered, hentered, hself]
    constructor
    · rintro ⟨hflight, rfl, hversion⟩
      have hflight : s.InFlight (s.updater r).pickedThreadIndex := by simpa using hflight
      rw [if_pos hflight] at hversion
      exact ⟨hflight, rfl, hversion⟩
    · rintro ⟨hflight, rfl, hversion⟩
      refine ⟨by simpa using hflight, rfl, ?_⟩
      rwa [if_pos hflight]
  · simp only [hr, false_and, or_false, Registered, State.InFlight, firstSection_updater_of_ne hr]

theorem Taken.firstSection (h : Inv hist s) (hpc : (s.updater i).pc = .enter) {p : Fin n} {v : ℤ}
    (htaken : Taken hist s p v) : Taken hist (firstSection s i) p v := by
  by_cases hp : p = i
  · subst hp
    rcases htaken with rfl | hinserted
    · have hsettled := h.versions.settled p (by simp [State.BeforeInsert, hpc, UpdaterPc.beforeInsert])
      exact .inr ⟨s.singlyList p, h.lists.head_mem p, by exact_mod_cast hsettled⟩
    · exact .inr hinserted
  · unfold Taken
    rw [firstSection_updater_of_ne hp]
    exact htaken

theorem firstSection_current_le (h : Inv hist s) (hpc : (s.updater i).pc = .enter) (p : Fin n) :
    (s.updater p).currentVersion ≤ ((firstSection s i).updater p).currentVersion := by
  by_cases hp : p = i
  · subst hp
    rw [firstSection_updater_self h.tracked hpc]
    exact (h.versions.le_counter p).trans (Nat.le_succ _)
  · rw [firstSection_updater_of_ne hp]

/-- A thread in flight has taken a version above `minimum`. -/
theorem QueueOk.minimum_lt_of_inFlight {p : Fin n} {entries : List ℕ} (hqueue : QueueOk hist s p entries)
    (hversions : Versions hist s) (hflight : s.InFlight p) :
    (s.queue p).minimum < (s.updater p).currentVersion := by
  rcases hqueue.minimum_lt_current with hlt | hzero
  · exact hlt
  · rw [hzero]
    exact_mod_cast hversions.pos p hflight

/-- The new reader is counted for the version it registered. -/
theorem card_readers_firstSection (h : Inv hist s) (hpc : (s.updater i).pc = .enter) {p : Fin n}
    (t : ℕ) : (readers (firstSection s i) p t).card ≤
      (readers s p t).card + [(s.updater p).currentVersion].count t := by
  by_cases ht : t = (s.updater p).currentVersion
  · have hsub : readers (firstSection s i) p t ⊆ insert i (readers s p t) := by
      intro r hr
      rw [Finset.mem_insert, mem_readers]
      rcases (registered_firstSection h.tracked hpc r p t).mp (mem_readers.mp hr) with hr | hr
      · exact .inr hr
      · exact .inl hr.1
    rw [← ht, List.count_singleton_self]
    exact (Finset.card_le_card hsub).trans (Finset.card_insert_le _ _)
  · have hsub : readers (firstSection s i) p t ⊆ readers s p t := by
      intro r hr
      rw [mem_readers]
      rcases (registered_firstSection h.tracked hpc r p t).mp (mem_readers.mp hr) with hr | hr
      · exact hr
      · exact absurd hr.2.2.2.symm ht
    exact (Finset.card_le_card hsub).trans (Nat.le_add_right _ _)

/-- The queue of the picked thread, which is active. -/
theorem QueueOk.firstSection_register (h : Inv hist s) (hpc : (s.updater i).pc = .enter) {p : Fin n}
    {entries : List ℕ} (hqueue : QueueOk hist s p entries)
    (hpicked : (s.updater i).pickedThreadIndex = p) (hflight : s.InFlight p) :
    QueueOk hist (firstSection s i) p (entries ++ [(s.updater p).currentVersion]) := by
  have hminimum := (@firstSection_minimum n s i p).1
  have hdelete := (@firstSection_minimum n s i p).2
  have hq : (Mvcc.firstSection s i).queue p =
      (s.queue p).addRear (toInt (s.updater p).currentVersion) := by
    rw [firstSection_queue h.tracked hpc]
    simp only [hpicked, if_pos hflight, Function.update_self]
  have hmem : ∀ t, t ∈ entries ++ [(s.updater p).currentVersion] →
      t ∈ entries ∨ t = (s.updater p).currentVersion := fun t ht => by simpa using ht
  constructor
  case wellFormed =>
    rw [hq]
    exact hqueue.wellFormed.addRear _
  case versions =>
    rw [hq, hqueue.wellFormed.versions_addRear, hqueue.versions, List.map_append]
    rfl
  case sorted =>
    rw [List.pairwise_append]
    refine ⟨hqueue.sorted, List.pairwise_singleton _ _, fun t ht w hw => ?_⟩
    rw [List.mem_singleton.mp hw]
    exact_mod_cast (hqueue.taken t ht).le_current h.lists h.versions
  case taken =>
    intro t ht
    rcases hmem t ht with ht | rfl
    · exact (hqueue.taken t ht).firstSection h hpc
    · exact Taken.firstSection h hpc (.inl rfl)
  case readers_le =>
    intro t
    rw [List.count_append]
    exact (card_readers_firstSection h hpc t).trans (Nat.add_le_add_right (hqueue.readers_le t) _)
  case deleteFront_le =>
    intro t ht
    rw [hdelete]
    rcases hmem t ht with ht | rfl
    · exact hqueue.deleteFront_le t ht
    · exact hqueue.deleteFront_taken.le_current h.lists h.versions
  case deleteFront_taken =>
    rw [hdelete]
    exact hqueue.deleteFront_taken.firstSection h hpc
  case minimum_lt =>
    intro t ht
    rw [hminimum]
    rcases hmem t ht with ht | rfl
    · exact hqueue.minimum_lt t ht
    · exact hqueue.minimum_lt_of_inFlight h.versions hflight
  case minimum_le =>
    rw [hminimum, hdelete]
    exact hqueue.minimum_le
  case minimum_inserted =>
    rw [hminimum]
    exact hqueue.minimum_inserted
  case minimum_lt_current =>
    rw [hminimum]
    exact hqueue.minimum_lt_current.imp_left fun hlt =>
      lt_of_lt_of_le hlt (by exact_mod_cast firstSection_current_le h hpc p)

theorem QueueOk.firstSection (h : Inv hist s) (hpc : (s.updater i).pc = .enter) {p : Fin n}
    {entries : List ℕ} (hqueue : QueueOk hist s p entries) :
    ∃ entries', QueueOk hist (firstSection s i) p entries' := by
  by_cases hp : (s.updater i).pickedThreadIndex = p ∧ s.InFlight p
  · exact ⟨_, hqueue.firstSection_register h hpc hp.1 hp.2⟩
  · have hq := firstSection_queue_of_not h.tracked hpc hp
    refine ⟨entries, hqueue.of_queue_eq hq (fun v hv => hv.firstSection h hpc) (fun v r hr => ?_)
      (fun a ha => ⟨ha, rfl⟩) (firstSection_current_le h hpc p)⟩
    rw [mem_readers] at hr ⊢
    rcases (registered_firstSection h.tracked hpc r p v).mp hr with hr | hr
    · exact hr
    · exact absurd ⟨hr.2.2.1, hr.2.1⟩ hp

theorem Tracked.enter (h : Tracked s) (hpc : (s.updater i).pc = .enter) :
    Tracked (firstSection s i) := by
  refine ⟨ActiveOk.firstSection h hpc, fun j hj => ?_⟩
  by_cases hji : j = i
  · subst hji
    rw [firstSection_updater_self h hpc]
    exact h.picked_ne j (.inl hpc)
  · unfold State.InFlight at hj
    rw [firstSection_updater_of_ne hji] at hj ⊢
    exact h.picked_ne j hj

theorem Inv.enter (h : Inv hist s) (hpc : (s.updater i).pc = .enter) : Inv hist (firstSection s i) := by
  have htracked := h.tracked.enter hpc
  refine ⟨h.lists.firstSection, Versions.firstSection h hpc, htracked.picked_ne, htracked.active, ?_, ?_⟩
  · obtain ⟨entries, hqueues⟩ := h.queues
    choose entries' hentries' using fun p => (hqueues p).firstSection h hpc
    exact ⟨entries', hentries'⟩
  · exact h.collector.of_minimum_le rfl rfl fun p => (firstSection_minimum p).1.ge

end Multicore.Mvcc
