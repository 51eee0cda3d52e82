import Multicore.Mvcc.History

/-!
# Events that keep versions and registrations

Most events only move one thread's locals: they read. The collector's cuts and frees write, but
neither to a version nor to a queue. What the invariant says about versions, the active list and the
queues depends on those and on what a thread between its critical sections has registered, so it
survives all these events for one reason.
-/

namespace Multicore.Mvcc

variable {n : ℕ} {hist : Fin n → List Addr} {s s' : State n}

/-! ### What an event leaves in place -/

theorem pick_frame (s : State n) (i p : Fin n) : ∃ u, effect s (.pick i p) = s.setUpdater i u := by
  simp only [effect]
  split
  · exact ⟨_, rfl⟩
  · exact ⟨_, rfl⟩

theorem searchStep_frame (s : State n) (i : Fin n) : ∃ u, searchStep s i = s.setUpdater i u := by
  simp only [searchStep]
  split
  · exact ⟨s.updater i, by simp [State.setUpdater]⟩
  · split
    · exact ⟨_, rfl⟩
    · exact ⟨_, rfl⟩

/-- What the collector can make of `s`: it writes links, frees nodes, and moves its own locals. -/
def State.collected (s : State n) (link : Addr → Option Addr) (freed : Addr → Bool)
    (collector : Collector n) : State n :=
  { s with heap := fun a => { s.heap a with link := link a }, freed := freed, collector := collector }

theorem collectStep_frame (s : State n) :
    ∃ link freed collector, collectStep s = s.collected link freed collector := by
  have hmove : ∀ c, ∃ link freed collector, s.setCollector c = s.collected link freed collector :=
    fun c => ⟨fun a => (s.heap a).link, s.freed, c, rfl⟩
  simp only [collectStep]
  cases s.collector.pc with
  | visit i =>
    cases s.collector.tmp with
    | none => exact hmove _
    | some a =>
      simp only
      split <;> exact hmove _
  | cut i =>
    cases s.collector.back with
    | none => exact hmove s.collector
    | some b =>
      have hheap : Function.update s.heap b { s.heap b with link := none } =
          fun a => { s.heap a with link := if a = b then none else (s.heap a).link } := by
        funext a
        by_cases hab : a = b
        · subst hab
          simp
        · simp [hab]
      dsimp only
      rw [hheap]
      exact ⟨fun a => if a = b then none else (s.heap a).link, s.freed, _, rfl⟩
  | free i =>
    cases s.collector.back with
    | none => exact hmove s.collector
    | some b => exact ⟨fun a => (s.heap a).link, _, _, rfl⟩
  | done => exact hmove s.collector
  | _ => exact hmove _

theorem Lists.of_minimum_le (h : Lists hist s) (hsingly : s'.singlyList = s.singlyList)
    (hheap : s'.heap = s.heap) (hfreed : s'.freed = s.freed) (hnext : s'.nextAddr = s.nextAddr)
    (hminimum : ∀ p, (s.queue p).minimum ≤ (s'.queue p).minimum) : Lists hist s' := by
  refine ⟨?_, ?_, ?_, h.owner, fun p a b hab => ?_, ?_, fun p a ha hfree => ?_, ?_⟩
  · rw [hsingly]; exact h.head
  · rw [hheap]; exact h.sorted
  · rw [hnext]; exact h.fresh
  · rw [hheap]
    exact (h.link p a b hab).imp_right fun hcut => ⟨hcut.1, lt_of_lt_of_le hcut.2 (hminimum p)⟩
  · rw [hheap]; exact h.last
  · rw [hheap]
    exact lt_of_lt_of_le (h.freed p a ha (hfreed ▸ hfree)) (hminimum p)
  · rw [hnext, hfreed]; exact h.unallocated

theorem CollectorOk.of_minimum_le (h : CollectorOk hist s) (hheap : s'.heap = s.heap)
    (hcollector : s'.collector = s.collector)
    (hminimum : ∀ p, (s.queue p).minimum ≤ (s'.queue p).minimum) : CollectorOk hist s' := by
  simp only [CollectorOk, hheap, hcollector] at h ⊢
  cases hpc : s.collector.pc with
  | readHead j => simp only [hpc] at h ⊢; exact ⟨h.1, h.2.trans (hminimum j)⟩
  | visit j => simp only [hpc] at h ⊢; exact ⟨h.1.trans (hminimum j), h.2⟩
  | cut j => simp only [hpc] at h ⊢; exact ⟨h.1.trans (hminimum j), h.2⟩
  | advance j => simp only [hpc] at h ⊢; exact ⟨h.1.trans (hminimum j), h.2⟩
  | free j => simp only [hpc] at h ⊢; exact ⟨h.1.trans (hminimum j), h.2⟩
  | testRun => trivial
  | testVerbosing => trivial
  | readMinimum j => trivial
  | done => trivial

/-- A queue that is not touched stays as good as it was, as long as its thread keeps what it has
taken, moves no version down, and gets no further reader. -/
theorem QueueOk.of_queue_eq {hist' : Fin n → List Addr} {p : Fin n} {entries : List ℕ}
    (h : QueueOk hist s p entries) (hqueue : s'.queue p = s.queue p)
    (htaken : ∀ v, Taken hist s p v → Taken hist' s' p v)
    (hreaders : ∀ v, readers s' p v ⊆ readers s p v)
    (hinserted : ∀ a ∈ hist p, a ∈ hist' p ∧ (s'.heap a).version = (s.heap a).version)
    (hcurrent : (s.updater p).currentVersion ≤ (s'.updater p).currentVersion) :
    QueueOk hist' s' p entries := by
  constructor <;> try rw [hqueue]
  · exact h.wellFormed
  · exact h.versions
  · exact h.sorted
  · exact fun v hv => htaken v (h.taken v hv)
  · exact fun v => (Finset.card_le_card (hreaders v)).trans (h.readers_le v)
  · exact h.deleteFront_le
  · exact htaken _ h.deleteFront_taken
  · exact h.minimum_lt
  · exact h.minimum_le
  · obtain ⟨a, ha, hversion⟩ := h.minimum_inserted
    exact ⟨a, (hinserted a ha).1, by rw [(hinserted a ha).2]; exact hversion⟩
  · exact h.minimum_lt_current.imp_left fun hlt => lt_of_lt_of_le hlt (by exact_mod_cast hcurrent)

/-! ### Quiet events -/

/-- `s'` has the heads, node versions, active list and queues of `s`, and every thread holds the
version and the registration it held. -/
structure Quiet (s s' : State n) : Prop where
  atomicCounter : s'.atomicCounter = s.atomicCounter
  activeList : s'.activeList = s.activeList
  singlyList : s'.singlyList = s.singlyList
  version : ∀ a, (s'.heap a).version = (s.heap a).version
  queue : s'.queue = s.queue
  current : ∀ i, (s'.updater i).currentVersion = (s.updater i).currentVersion
  inFlight : ∀ i, (s'.updater i).pc.inFlight = (s.updater i).pc.inFlight
  beforeInsert : ∀ i, (s'.updater i).pc.beforeInsert = (s.updater i).pc.beforeInsert
  registration : ∀ i, s.InFlight i →
    (s'.updater i).isThreadActive = (s.updater i).isThreadActive ∧
    (s'.updater i).pickedThreadIndex = (s.updater i).pickedThreadIndex ∧
    (s'.updater i).activeThreadVersion = (s.updater i).activeThreadVersion

/-- Moving one thread's locals is quiet when its version, its phase and its registration stay. -/
theorem quiet_setUpdater {i : Fin n} {u : Updater n}
    (hcurrent : u.currentVersion = (s.updater i).currentVersion)
    (hflight : u.pc.inFlight = (s.updater i).pc.inFlight)
    (hbefore : u.pc.beforeInsert = (s.updater i).pc.beforeInsert)
    (hregistration : s.InFlight i → u.isThreadActive = (s.updater i).isThreadActive ∧
      u.pickedThreadIndex = (s.updater i).pickedThreadIndex ∧
      u.activeThreadVersion = (s.updater i).activeThreadVersion) : Quiet s (s.setUpdater i u) := by
  refine ⟨rfl, rfl, rfl, fun _ => rfl, rfl, ?_, ?_, ?_, ?_⟩ <;> intro j <;>
    by_cases hj : j = i
  all_goals first
    | subst hj; simpa [State.setUpdater]
    | simp [State.setUpdater, hj]

/-- An event that moves no updater is quiet when heads, versions and queues stay. -/
theorem Quiet.of_updater_eq (hupdater : s'.updater = s.updater)
    (hcounter : s'.atomicCounter = s.atomicCounter) (hactive : s'.activeList = s.activeList)
    (hsingly : s'.singlyList = s.singlyList)
    (hversion : ∀ a, (s'.heap a).version = (s.heap a).version) (hqueue : s'.queue = s.queue) :
    Quiet s s' := by
  refine ⟨hcounter, hactive, hsingly, hversion, hqueue, ?_, ?_, ?_, ?_⟩ <;> rw [hupdater] <;>
    simp

/-- Everything but the two critical sections and linking a node in. -/
def Event.isQuiet : Event n → Bool
  | .enter _ | .insert _ | .leave _ => false
  | _ => true

/-- A reading thread that goes on reading, or goes from reading to linking in. -/
theorem quiet_read {i : Fin n} {u : Updater n} (hbefore : s.BeforeInsert i)
    (hpc : u.pc.beforeInsert = true) (hcurrent : u.currentVersion = (s.updater i).currentVersion)
    (hactive : u.isThreadActive = (s.updater i).isThreadActive)
    (hpicked : u.pickedThreadIndex = (s.updater i).pickedThreadIndex)
    (hversion : u.activeThreadVersion = (s.updater i).activeThreadVersion) :
    Quiet s (s.setUpdater i u) := by
  refine quiet_setUpdater hcurrent ?_ (hpc.trans hbefore.symm) fun _ => ⟨hactive, hpicked, hversion⟩
  exact (UpdaterPc.inFlight_of_beforeInsert hpc).trans
    (UpdaterPc.inFlight_of_beforeInsert hbefore).symm

/-- A thread outside its critical sections that stays outside. -/
theorem quiet_outside {i : Fin n} {u : Updater n} (hflight : (s.updater i).pc.inFlight = false)
    (hpc : u.pc.inFlight = false) (hcurrent : u.currentVersion = (s.updater i).currentVersion) :
    Quiet s (s.setUpdater i u) := by
  have hbefore : ∀ pc : UpdaterPc, pc.inFlight = false → pc.beforeInsert = false := by
    intro pc h
    cases pc <;> first | rfl | cases h
  refine quiet_setUpdater hcurrent (hpc.trans hflight.symm)
    ((hbefore _ hpc).trans (hbefore _ hflight).symm) fun hin => ?_
  exact absurd (hflight.symm.trans hin) Bool.false_ne_true

theorem searchStep_none {i : Fin n} (hcursor : (s.updater i).cursorSinglyNode = none) :
    searchStep s i = s := by
  simp only [searchStep, hcursor]

theorem searchStep_stop {i : Fin n} {a : Addr} (hcursor : (s.updater i).cursorSinglyNode = some a)
    (hlt : (s.heap a).version < (s.updater i).activeThreadVersion) :
    searchStep s i = s.setUpdater i { s.updater i with pc := .readA } := by
  simp only [searchStep, hcursor, if_pos hlt]

theorem searchStep_follow {i : Fin n} {a : Addr} (hcursor : (s.updater i).cursorSinglyNode = some a)
    (hle : ¬ (s.heap a).version < (s.updater i).activeThreadVersion) :
    searchStep s i = s.setUpdater i { s.updater i with cursorSinglyNode := (s.heap a).link } := by
  simp only [searchStep, hcursor, if_neg hle]

theorem quiet_searchStep {i : Fin n} (hpc : (s.updater i).pc = .search) :
    Quiet s (searchStep s i) := by
  have hbefore : s.BeforeInsert i := by
    rw [State.BeforeInsert, hpc]
    rfl
  cases hcursor : (s.updater i).cursorSinglyNode with
  | none =>
    rw [searchStep_none hcursor]
    exact .of_updater_eq rfl rfl rfl rfl (fun _ => rfl) rfl
  | some a =>
    by_cases hlt : (s.heap a).version < (s.updater i).activeThreadVersion
    · rw [searchStep_stop hcursor hlt]
      exact quiet_read hbefore rfl rfl rfl rfl rfl
    · rw [searchStep_follow hcursor hlt]
      exact quiet_read hbefore hbefore rfl rfl rfl rfl

theorem quiet_collectStep : Quiet s (collectStep s) := by
  obtain ⟨link, freed, c, heq⟩ := collectStep_frame s
  rw [heq]
  exact .of_updater_eq rfl rfl rfl rfl (fun _ => rfl) rfl

theorem quiet_of_enabled {e : Event n} (hquiet : e.isQuiet = true) (henabled : Enabled s e) :
    Quiet s (effect s e) := by
  cases e with
  | testRun i =>
    refine quiet_outside (by rw [show (s.updater i).pc = _ from henabled]; rfl) ?_ rfl
    by_cases hrun : s.couldThreadRun = true <;> simp [hrun, UpdaterPc.inFlight]
  | pick i p =>
    have hflight : (s.updater i).pc.inFlight = false := by
      rw [henabled.1]
      rfl
    simp only [effect]
    split <;> exact quiet_outside hflight rfl rfl
  | readHead i =>
    have hbefore : s.BeforeInsert i := by
      rw [State.BeforeInsert, show (s.updater i).pc = _ from henabled]
      rfl
    exact quiet_read hbefore rfl rfl rfl rfl rfl
  | readOwn i =>
    have hbefore : s.BeforeInsert i := by
      rw [State.BeforeInsert, show (s.updater i).pc = _ from henabled]
      rfl
    refine quiet_read hbefore ?_ rfl rfl rfl rfl
    by_cases hactive : (s.updater i).isThreadActive = true <;> simp [hactive, UpdaterPc.beforeInsert]
  | search i => exact quiet_searchStep henabled.1
  | readA i x =>
    exact quiet_read (by rw [State.BeforeInsert, henabled.1]; rfl) rfl rfl rfl rfl rfl
  | readAAgain i x =>
    exact quiet_read (by rw [State.BeforeInsert, henabled.1]; rfl) rfl rfl rfl rfl rfl
  | countUp i =>
    have hmove : Quiet s
        (s.setUpdater i { s.updater i with pc := .testRun, captureActiveList := [] }) :=
      quiet_outside (by rw [show (s.updater i).pc = _ from henabled]; rfl) rfl rfl
    exact ⟨hmove.1, hmove.2, hmove.3, hmove.4, hmove.5, hmove.6, hmove.7, hmove.8, hmove.9⟩
  | collect => exact quiet_collectStep
  | setVerbosing value => exact .of_updater_eq rfl rfl rfl rfl (fun _ => rfl) rfl
  | stopRun => exact .of_updater_eq rfl rfl rfl rfl (fun _ => rfl) rfl
  | enter i => cases hquiet
  | insert i => cases hquiet
  | leave i => cases hquiet

/-! ### The invariant across a quiet event -/

theorem Quiet.registered_iff (h : Quiet s s') (r p : Fin n) (v : ℕ) :
    Registered s' r p v ↔ Registered s r p v := by
  unfold Registered State.InFlight
  rw [h.inFlight r]
  constructor
  · rintro ⟨hflight, hrest⟩
    obtain ⟨h1, h2, h3⟩ := h.registration r hflight
    exact ⟨hflight, by rwa [h1, h2, h3] at hrest⟩
  · rintro ⟨hflight, hrest⟩
    obtain ⟨h1, h2, h3⟩ := h.registration r hflight
    exact ⟨hflight, by rwa [h1, h2, h3]⟩

theorem Quiet.readers_eq (h : Quiet s s') (p : Fin n) (v : ℕ) : readers s' p v = readers s p v := by
  ext r
  rw [mem_readers, mem_readers, h.registered_iff]

theorem Quiet.versions (h : Quiet s s') (hversions : Versions hist s) : Versions hist s' := by
  refine ⟨?_, ?_, ?_, ?_⟩ <;> intro p
  · rw [h.current p, h.atomicCounter]
    exact hversions.le_counter p
  · unfold State.InFlight
    rw [h.current p, h.inFlight p]
    exact hversions.pos p
  · unfold State.BeforeInsert
    simp only [h.current p, h.beforeInsert p, h.version]
    exact hversions.pending p
  · unfold State.BeforeInsert
    rw [h.current p, h.beforeInsert p, h.version, h.singlyList]
    exact hversions.settled p

theorem Quiet.active (h : Quiet s s') (hactive : ActiveOk s) : ActiveOk s' := by
  refine ⟨fun i v => ?_, by rw [h.activeList]; exact hactive.nodup⟩
  unfold State.InFlight
  rw [h.activeList, h.inFlight i, h.current i]
  exact hactive.mem_iff i v

theorem Quiet.taken_iff (h : Quiet s s') (p : Fin n) (v : ℤ) :
    Taken hist s' p v ↔ Taken hist s p v := by
  unfold Taken
  simp only [h.current p, h.version]

theorem Quiet.queueOk (h : Quiet s s') {p : Fin n} {entries : List ℕ}
    (hqueue : QueueOk hist s p entries) : QueueOk hist s' p entries :=
  hqueue.of_queue_eq (congrFun h.queue p) (fun v => (h.taken_iff p v).mpr)
    (fun v => (h.readers_eq p v).le) (fun a ha => ⟨ha, h.version a⟩) (h.current p).ge

theorem Tracked.setUpdater (h : Tracked s) {i : Fin n} {u : Updater n}
    (hquiet : Quiet s (s.setUpdater i u)) (hpicked : u.pc = .enter → u.pickedThreadIndex ≠ i) :
    Tracked (s.setUpdater i u) := by
  refine ⟨hquiet.active h.active, fun j hj => ?_⟩
  rcases hj with henter | hflight
  · by_cases hij : j = i
    · subst hij
      simp only [State.setUpdater, Function.update_self] at henter ⊢
      exact hpicked henter
    · simp only [State.setUpdater, Function.update_of_ne hij] at henter ⊢
      exact h.picked_ne j (.inl henter)
  · rw [State.InFlight, hquiet.inFlight] at hflight
    rw [(hquiet.registration j hflight).2.1]
    exact h.picked_ne j (.inr hflight)

theorem Tracked.of_updater_eq (h : Tracked s) (hquiet : Quiet s s')
    (hupdater : s'.updater = s.updater) : Tracked s' := by
  refine ⟨hquiet.active h.active, ?_⟩
  simp only [State.InFlight, hupdater]
  exact h.picked_ne

/-- A quiet event keeps the invariant once the lists, the collector and the picks are looked
after. -/
theorem Quiet.inv (h : Quiet s s') (hinv : Inv hist s) (hlists : Lists hist s')
    (hcollector : CollectorOk hist s') (htracked : Tracked s') : Inv hist s' := by
  obtain ⟨entries, hqueues⟩ := hinv.queues
  exact ⟨hlists, h.versions hinv.versions, htracked.picked_ne, htracked.active,
    ⟨entries, fun p => h.queueOk (hqueues p)⟩, hcollector⟩

/-- A quiet event that moves no updater keeps the invariant once the lists and the collector are
looked after. -/
theorem Inv.of_updater_eq (hinv : Inv hist s) (hquiet : Quiet s s')
    (hupdater : s'.updater = s.updater) (hlists : Lists hist s') (hcollector : CollectorOk hist s') :
    Inv hist s' :=
  hquiet.inv hinv hlists hcollector (hinv.tracked.of_updater_eq hquiet hupdater)

end Multicore.Mvcc
