import Mathlib.Data.Finset.Insert
import Mathlib.Data.Multiset.MapFold
import Multicore.Mvcc.Invariant

/-!
# The queues mirror the readers in flight

As long as every version fits the `int` parameter of `AddRear`, the entries of a queue are the
versions its readers registered, one entry a reader, oldest in front. What the `malloc` of
`CreateQueue` left in `minimum` and `delete_front` has no part in this, so the runs here start from
any values of the two.
-/

namespace Multicore.Mvcc

variable {n : ℕ} {s s' : State n} {e : Event n} {i p : Fin n}

theorem toInt_of_lt {v : ℕ} (hv : v < 2 ^ 31) : toInt v = v := by
  unfold toInt
  exact Int.bmod_eq_of_le (by omega) (by omega)

/-! ### The readers of a thread -/

/-- The threads that picked `p`, found it active and are between their critical sections. -/
def readersOf (s : State n) (p : Fin n) : Finset (Fin n) :=
  Finset.univ.filter fun r =>
    s.InFlight r ∧ (s.updater r).isThreadActive = true ∧ (s.updater r).pickedThreadIndex = p

theorem mem_readersOf {r : Fin n} : r ∈ readersOf s p ↔
    s.InFlight r ∧ (s.updater r).isThreadActive = true ∧ (s.updater r).pickedThreadIndex = p := by
  simp [readersOf]

theorem mem_readersOf_iff {r : Fin n} :
    r ∈ readersOf s p ↔ Registered s r p (s.updater r).activeThreadVersion := by
  simp [mem_readersOf, Registered]

/-- The versions they found `p` active with. -/
def readVersions (s : State n) (p : Fin n) : Multiset ℤ :=
  (readersOf s p).val.map fun r => ((s.updater r).activeThreadVersion : ℤ)

/-- Readers that stay, with the versions they registered, keep the collection of versions. -/
theorem readVersions_congr (hregistered : ∀ r v, Registered s' r p v ↔ Registered s r p v) :
    readVersions s' p = readVersions s p := by
  have hversion : ∀ r ∈ readersOf s p,
      (s'.updater r).activeThreadVersion = (s.updater r).activeThreadVersion := fun r hr =>
    ((hregistered r _).mpr (mem_readersOf_iff.mp hr)).2.2.2
  have hreaders : readersOf s' p = readersOf s p := by
    ext r
    constructor
    · intro hr
      have hold := (hregistered r _).mp (mem_readersOf_iff.mp hr)
      exact mem_readersOf.mpr ⟨hold.1, hold.2.1, hold.2.2.1⟩
    · intro hr
      have hnew := (hregistered r _).mpr (mem_readersOf_iff.mp hr)
      exact mem_readersOf.mpr ⟨hnew.1, hnew.2.1, hnew.2.2.1⟩
  rw [readVersions, readVersions, hreaders]
  exact Multiset.map_congr rfl fun r hr => by rw [hversion r hr]

/-- A reader that finds the thread it picked active adds that thread's version. -/
theorem readVersions_firstSection (htracked : Tracked s) (hpc : (s.updater i).pc = .enter)
    (hpicked : (s.updater i).pickedThreadIndex = p) (hflight : s.InFlight p) :
    readVersions (firstSection s i) p = ((s.updater p).currentVersion : ℤ) ::ₘ readVersions s p := by
  subst hpicked
  have hself := firstSection_updater_self htracked hpc
  have hnotin : i ∉ readersOf s (s.updater i).pickedThreadIndex := by
    rw [mem_readersOf, State.InFlight, hpc]
    simp [UpdaterPc.inFlight]
  have hreaders : readersOf (firstSection s i) (s.updater i).pickedThreadIndex =
      insert i (readersOf s (s.updater i).pickedThreadIndex) := by
    ext r
    rw [mem_readersOf_iff, Finset.mem_insert, registered_firstSection htracked hpc]
    by_cases hr : r = i
    · subst hr
      rw [hself]
      simp [hflight]
    · rw [firstSection_updater_of_ne hr, mem_readersOf_iff]
      simp [hr]
  have hold : ∀ r ∈ readersOf s (s.updater i).pickedThreadIndex,
      (firstSection s i).updater r = s.updater r := fun r hr =>
    firstSection_updater_of_ne fun heq => hnotin (heq ▸ hr)
  have hactive : ((firstSection s i).updater i).activeThreadVersion =
      (s.updater (s.updater i).pickedThreadIndex).currentVersion := by
    rw [hself]
    exact if_pos hflight
  rw [readVersions, readVersions, hreaders, Finset.insert_val_of_notMem hnotin, Multiset.map_cons,
    hactive]
  exact congrArg _ (Multiset.map_congr rfl fun r hr => by rw [hold r hr])

/-- A reader that leaves takes its version away. -/
theorem readVersions_secondSection (hi : i ∈ readersOf s p) :
    readVersions (secondSection s i) p =
      (readVersions s p).erase ((s.updater i).activeThreadVersion : ℤ) := by
  have hreaders : readersOf (secondSection s i) p = (readersOf s p).erase i := by
    ext r
    rw [mem_readersOf_iff, registered_secondSection, Finset.mem_erase, mem_readersOf_iff]
    refine and_congr_right fun hr => ?_
    rw [secondSection_updater_of_ne hr]
  have hold : ∀ r ∈ (readersOf s p).erase i, (secondSection s i).updater r = s.updater r :=
    fun r hr => secondSection_updater_of_ne (Finset.ne_of_mem_erase hr)
  rw [readVersions, readVersions, hreaders, Finset.erase_val,
    ← Multiset.map_erase_of_mem _ _ (Finset.mem_val.mpr hi)]
  exact Multiset.map_congr rfl fun r hr => by rw [hold r hr]

/-! ### One queue -/

/-- The queue of `p` is well formed, its entries do not decrease from front to rear, and they are the
versions of the readers of `p`. -/
structure Mirrors (s : State n) (p : Fin n) : Prop where
  wellFormed : (s.queue p).WellFormed
  sorted : (s.queue p).versions.Pairwise (· ≤ ·)
  le_current : ∀ v ∈ (s.queue p).versions, v ≤ (s.updater p).currentVersion
  versions_eq : ((s.queue p).versions : Multiset ℤ) = readVersions s p

theorem Mirrors.congr (h : Mirrors s p) (hqueue : s'.queue p = s.queue p)
    (hcurrent : (s.updater p).currentVersion ≤ (s'.updater p).currentVersion)
    (hregistered : ∀ r v, Registered s' r p v ↔ Registered s r p v) : Mirrors s' p := by
  refine ⟨?_, ?_, ?_, ?_⟩ <;> rw [hqueue]
  · exact h.wellFormed
  · exact h.sorted
  · exact fun v hv => (h.le_current v hv).trans (by exact_mod_cast hcurrent)
  · rw [h.versions_eq, readVersions_congr hregistered]

/-- The version that is registered is the newest its thread has, so it belongs behind all others. -/
theorem Mirrors.register (h : Mirrors s p) (htracked : Tracked s) (hpc : (s.updater i).pc = .enter)
    (hpicked : (s.updater i).pickedThreadIndex = p) (hflight : s.InFlight p)
    (hbound : (s.updater p).currentVersion < 2 ^ 31) : Mirrors (firstSection s i) p := by
  have hne : p ≠ i := hpicked ▸ htracked.picked_ne i (.inl hpc)
  have hupdater : (firstSection s i).updater p = s.updater p := firstSection_updater_of_ne hne
  have hqueue : (firstSection s i).queue p =
      (s.queue p).addRear ((s.updater p).currentVersion : ℤ) := by
    rw [firstSection_queue htracked hpc]
    simp only [hpicked, if_pos hflight, Function.update_self, toInt_of_lt hbound]
  have hversions : ((firstSection s i).queue p).versions =
      (s.queue p).versions ++ [((s.updater p).currentVersion : ℤ)] := by
    rw [hqueue, h.wellFormed.versions_addRear]
  refine ⟨?_, ?_, ?_, ?_⟩
  · rw [hqueue]
    exact h.wellFormed.addRear _
  · rw [hversions, List.pairwise_append]
    refine ⟨h.sorted, List.pairwise_singleton _ _, fun v hv w hw => ?_⟩
    rw [List.mem_singleton.mp hw]
    exact h.le_current v hv
  · rw [hversions, hupdater]
    intro v hv
    rcases List.mem_append.mp hv with hv | hv
    · exact h.le_current v hv
    · exact (List.mem_singleton.mp hv).le
  · rw [hversions, ← Multiset.coe_add, h.versions_eq, Multiset.coe_singleton, add_comm,
      Multiset.singleton_add, readVersions_firstSection htracked hpc hpicked hflight]

theorem Mirrors.enter (h : Mirrors s p) (htracked : Tracked s) (hpc : (s.updater i).pc = .enter)
    (hcounter : (s.updater p).currentVersion ≤ s.atomicCounter)
    (hbound : s.atomicCounter < 2 ^ 31) : Mirrors (firstSection s i) p := by
  by_cases hp : (s.updater i).pickedThreadIndex = p ∧ s.InFlight p
  · exact h.register htracked hpc hp.1 hp.2 (lt_of_le_of_lt hcounter hbound)
  · refine h.congr (firstSection_queue_of_not htracked hpc hp) ?_ fun r v => ?_
    · by_cases hpi : p = i
      · subst hpi
        rw [firstSection_updater_self htracked hpc]
        exact hcounter.trans (Nat.le_succ _)
      · rw [firstSection_updater_of_ne hpi]
    · rw [registered_firstSection htracked hpc]
      refine or_iff_left fun hnew => ?_
      exact hp ⟨hnew.2.2.1, hnew.2.1⟩

/-- Taking a registration back erases one entry of its version. -/
theorem Mirrors.leave (h : Mirrors s p) (hpc : (s.updater i).pc = .leave) :
    Mirrors (secondSection s i) p := by
  by_cases hi : i ∈ readersOf s p
  · obtain ⟨-, hactive, rfl⟩ := mem_readersOf.mp hi
    set p := (s.updater i).pickedThreadIndex with hpdef
    have hqueue : (secondSection s i).queue p =
        (s.queue p).unregister (s.updater i).activeThreadVersion := by
      simp [secondSection, hactive, ← hpdef]
    obtain ⟨hwell, hversions⟩ := h.wellFormed.unregister (s.updater i).activeThreadVersion
    rw [← hqueue] at hwell hversions
    refine ⟨hwell, ?_, ?_, ?_⟩ <;> rw [hversions]
    · exact h.sorted.sublist List.erase_sublist
    · rw [secondSection_current]
      exact fun v hv => h.le_current v (List.mem_of_mem_erase hv)
    · rw [readVersions_secondSection hi, ← h.versions_eq, Multiset.coe_erase]
  · have hidle : (s.updater i).isThreadActive = true → p ≠ (s.updater i).pickedThreadIndex := by
      rintro hactive rfl
      exact hi (mem_readersOf.mpr ⟨by rw [State.InFlight, hpc]; rfl, hactive, rfl⟩)
    have hqueue : (secondSection s i).queue p = s.queue p := by
      by_cases hactive : (s.updater i).isThreadActive = true
      · simp [secondSection, hactive, hidle hactive]
      · simp [secondSection, hactive]
    refine h.congr hqueue (secondSection_current p).ge fun r v => ?_
    rw [registered_secondSection]
    refine and_iff_right_of_imp ?_
    rintro hreg rfl
    exact hi (mem_readersOf.mpr ⟨hreg.1, hreg.2.1, hreg.2.2.1⟩)

/-! ### Steps and runs -/

theorem current_effect_le (htracked : Tracked s) (henabled : Enabled s e)
    (hcounter : ∀ p, (s.updater p).currentVersion ≤ s.atomicCounter) :
    s.atomicCounter ≤ (effect s e).atomicCounter ∧
      ∀ p, ((effect s e).updater p).currentVersion ≤ (effect s e).atomicCounter := by
  cases hquiet : e.isQuiet with
  | true =>
    have hsame := quiet_of_enabled hquiet henabled
    refine ⟨hsame.atomicCounter.ge, fun p => ?_⟩
    rw [hsame.current, hsame.atomicCounter]
    exact hcounter p
  | false =>
    cases e with
    | enter i =>
      refine ⟨Nat.le_succ _, fun p => ?_⟩
      by_cases hp : p = i
      · subst hp
        rw [effect, firstSection_updater_self htracked henabled]
        exact le_rfl
      · rw [effect, firstSection_updater_of_ne hp]
        exact (hcounter p).trans (Nat.le_succ _)
    | insert i => exact ⟨le_rfl, fun p => (linkedIn_current p).trans_le (hcounter p)⟩
    | leave i => exact ⟨le_rfl, fun p => (secondSection_current p).trans_le (hcounter p)⟩
    | _ => cases hquiet

theorem Mirrors.step (h : Mirrors s p) (htracked : Tracked s) (hstep : Step s e s')
    (hcounter : (s.updater p).currentVersion ≤ s.atomicCounter) (hbound : s.atomicCounter < 2 ^ 31) :
    Mirrors s' p := by
  obtain ⟨henabled, rfl⟩ := hstep
  cases hquiet : e.isQuiet with
  | true =>
    have hsame := quiet_of_enabled hquiet henabled
    exact h.congr (congrFun hsame.queue p) (hsame.current p).ge fun r v => hsame.registered_iff r p v
  | false =>
    cases e with
    | enter i => exact h.enter htracked henabled hcounter hbound
    | insert i =>
      exact h.congr rfl (linkedIn_current p).ge fun r v => registered_linkedIn henabled r p v
    | leave i => exact h.leave henabled
    | _ => cases hquiet

/-- The state `main` starts the threads in, for any `minimum` and `delete_front` that `malloc` left in
the queues. -/
def initialWith (minimum deleteFront : Fin n → ℤ) (a b : Fin n → BitVec 32) : State n :=
  { initial a b with
    queue := fun p =>
      { Queue.createQueue with minimum := minimum p, deleteFront := deleteFront p } }

theorem tracked_initialWith (minimum deleteFront : Fin n → ℤ) (a b : Fin n → BitVec 32) :
    Tracked (initialWith minimum deleteFront a b) :=
  ⟨⟨(inv_initial a b).active.mem_iff, (inv_initial a b).active.nodup⟩, (inv_initial a b).picked_ne⟩

theorem tracked_of_run {minimum deleteFront : Fin n → ℤ} {a b : Fin n → BitVec 32}
    {trace : List (Event n)} (hrun : Run Step (initialWith minimum deleteFront a b) trace s) :
    Tracked s := by
  apply hrun.invariant (P := fun _ s => Tracked s)
  · exact tracked_initialWith _ _ _ _
  · intro trace s e s' _ htracked hstep
    exact htracked.step hstep

theorem mirrors_initialWith (minimum deleteFront : Fin n → ℤ) (a b : Fin n → BitVec 32)
    (p : Fin n) : Mirrors (initialWith minimum deleteFront a b) p := by
  have hnone : readersOf (initialWith minimum deleteFront a b) p = ∅ := by
    ext r
    rw [mem_readersOf]
    simp [State.InFlight, initialWith, initial, initialUpdater, UpdaterPc.inFlight]
  refine ⟨⟨rfl, fun hne => absurd rfl hne, List.nodup_nil, fun node hnode => ?_⟩, List.Pairwise.nil,
    fun v hv => ?_, ?_⟩
  · cases hnode
  · cases hv
  · rw [readVersions, hnone]
    rfl

/-- In every state in which all versions are below `2 ^ 31` each queue is well formed and its entries,
which do not decrease from front to rear, are the versions its readers in flight registered. So a
reader that leaves finds the front of the queue it registered in set. -/
theorem queues_mirror_readers {minimum deleteFront : Fin n → ℤ} {a b : Fin n → BitVec 32}
    {trace : List (Event n)} (hrun : Run Step (initialWith minimum deleteFront a b) trace s)
    (hbound : s.atomicCounter < 2 ^ 31) :
    (∀ p, (s.queue p).WellFormed ∧ (s.queue p).versions.Pairwise (· ≤ ·) ∧
      ((s.queue p).versions : Multiset ℤ) =
        (Finset.univ.filter fun r => s.InFlight r ∧ (s.updater r).isThreadActive = true ∧
          (s.updater r).pickedThreadIndex = p).val.map
            fun r => ((s.updater r).activeThreadVersion : ℤ)) ∧
      ∀ r, (s.updater r).pc = .leave → (s.updater r).isThreadActive = true →
        (s.queue (s.updater r).pickedThreadIndex).front ≠ [] := by
  have hinv : (∀ p, (s.updater p).currentVersion ≤ s.atomicCounter) ∧
      (s.atomicCounter < 2 ^ 31 → ∀ p, Mirrors s p) := by
    refine hrun.invariant (P := fun _ s => (∀ p, (s.updater p).currentVersion ≤ s.atomicCounter) ∧
      (s.atomicCounter < 2 ^ 31 → ∀ p, Mirrors s p)) ?_ ?_
    · exact ⟨fun p => le_rfl, fun _ => mirrors_initialWith _ _ _ _⟩
    · rintro trace s e s' hrun ⟨hcounter, hmirrors⟩ hstep
      have htracked := tracked_of_run hrun
      have hle := current_effect_le htracked hstep.1 hcounter
      rw [← hstep.2] at hle
      refine ⟨hle.2, fun hbound p => ?_⟩
      have hbefore := lt_of_le_of_lt hle.1 hbound
      exact (hmirrors hbefore p).step htracked hstep (hcounter p) hbefore
  have hmirrors := hinv.2 hbound
  refine ⟨fun p => ⟨(hmirrors p).wellFormed, (hmirrors p).sorted, (hmirrors p).versions_eq⟩,
    fun r hpc hactive hempty => ?_⟩
  have hr : r ∈ readersOf s (s.updater r).pickedThreadIndex :=
    mem_readersOf.mpr ⟨by rw [State.InFlight, hpc]; rfl, hactive, rfl⟩
  have hmem : ((s.updater r).activeThreadVersion : ℤ) ∈ readVersions s (s.updater r).pickedThreadIndex :=
    Multiset.mem_map_of_mem _ (Finset.mem_val.mpr hr)
  rw [← (hmirrors _).versions_eq, Queue.versions, hempty] at hmem
  exact absurd (Multiset.mem_coe.mp hmem) List.not_mem_nil

/-- Thread `0` takes version `1`, threads `1` and `2` register with it, and thread `1` is about to
leave. -/
def twoReaders : List (Event 3) :=
  [.testRun 0, .pick 0 1, .enter 0, .testRun 1, .pick 1 0, .enter 1, .testRun 2, .pick 2 0, .enter 2,
    .readHead 1, .readOwn 1, .search 1, .readA 1 5, .readAAgain 1 5, .insert 1]

theorem queues_mirror_readers_twoReaders :
    let s := execute effect (initialWith (fun _ => 8) (fun _ => 9) (fun _ => 5) fun _ => 7) twoReaders
    s.atomicCounter < 2 ^ 31 ∧ (s.queue 0).versions = [1, 1] ∧ (s.queue 0).WellFormed ∧
      (s.queue 0).front ≠ [] := by
  intro s
  have hrun : Run Step (initialWith (fun _ => 8) (fun _ => 9) (fun _ => 5) fun _ => 7)
      twoReaders.reverse s := run_execute (by decide +kernel)
  have hbound : s.atomicCounter < 2 ^ 31 := by decide +kernel
  obtain ⟨hqueues, hfront⟩ := queues_mirror_readers hrun hbound
  exact ⟨hbound, by decide +kernel, (hqueues 0).1, hfront 1 (by decide +kernel) (by decide +kernel)⟩

end Multicore.Mvcc
