import Multicore.Mvcc.Invariant

/-!
# The versions a reader asks for

A registered reader asks for the newest node below the version its picked thread held. That node is
the one which headed the picked thread's list when the thread took the version; nothing a run does
later changes this, since a thread links its nodes in with growing versions.
-/

namespace Multicore.Mvcc

variable {n : ℕ} {hist : Fin n → List Addr} {s s' : State n} {e : Event n} {r p : Fin n} {v : ℕ}
  {x w : Addr}

/-! ### What one event can do -/

/-- The updater an event belongs to. -/
def Event.thread : Event n → Option (Fin n)
  | .testRun i | .pick i _ | .enter i | .readHead i | .readOwn i | .search i | .readA i _
  | .readAAgain i _ | .insert i | .leave i | .countUp i => some i
  | .collect | .setVerbosing _ | .stopRun => none

/-- An event leaves the locals of every other updater alone. -/
theorem updater_effect_of_ne (hne : e.thread ≠ some r) : (effect s e).updater r = s.updater r := by
  have hset : ∀ i u, some i ≠ some r → (s.setUpdater i u).updater r = s.updater r := fun i u hi =>
    Function.update_of_ne (fun heq => hi (congrArg some heq.symm)) _ _
  cases e with
  | pick i p =>
    obtain ⟨u, heq⟩ := pick_frame s i p
    rw [heq]
    exact hset i u hne
  | search i =>
    obtain ⟨u, heq⟩ := searchStep_frame s i
    rw [effect, heq]
    exact hset i u hne
  | collect => exact congrFun updater_collectStep r
  | setVerbosing value => rfl
  | stopRun => rfl
  | enter i => exact firstSection_updater_of_ne fun heq => hne (congrArg some heq.symm)
  | leave i => exact secondSection_updater_of_ne fun heq => hne (congrArg some heq.symm)
  | insert i => exact linkedIn_updater_of_ne fun heq => hne (congrArg some heq.symm)
  | countUp i => exact hset i _ hne
  | testRun i => exact hset i _ hne
  | readHead i => exact hset i _ hne
  | readOwn i => exact hset i _ hne
  | readA i x => exact hset i _ hne
  | readAAgain i x => exact hset i _ hne

theorem setUpdater_updater_self {u : Updater n} : (s.setUpdater r u).updater r = u :=
  Function.update_self _ _ _

/-- A thread is before its linking in after the first critical section and the reads that follow it. -/
theorem beforeInsert_step (hstep : Step s e s') (hself : e.thread = some r)
    (hbefore : s'.BeforeInsert r) :
    e = .enter r ∨ e = .readHead r ∨ e = .readOwn r ∨ e = .search r ∨ (∃ y, e = .readA r y) ∨
      ∃ y, e = .readAAgain r y := by
  obtain ⟨henabled, rfl⟩ := hstep
  rw [State.BeforeInsert] at hbefore
  cases e with
  | testRun i =>
    obtain rfl := Option.some.inj hself
    rw [effect, setUpdater_updater_self] at hbefore
    by_cases hrun : s.couldThreadRun = true <;> simp [hrun, UpdaterPc.beforeInsert] at hbefore
  | pick i p =>
    obtain rfl := Option.some.inj hself
    rw [effect] at hbefore
    split at hbefore <;> rw [setUpdater_updater_self] at hbefore <;> cases hbefore
  | enter i => exact .inl (congrArg _ (Option.some.inj hself))
  | readHead i => exact .inr (.inl (congrArg _ (Option.some.inj hself)))
  | readOwn i => exact .inr (.inr (.inl (congrArg _ (Option.some.inj hself))))
  | search i => exact .inr (.inr (.inr (.inl (congrArg _ (Option.some.inj hself)))))
  | readA i y => exact .inr (.inr (.inr (.inr (.inl ⟨y, by rw [Option.some.inj hself]⟩))))
  | readAAgain i y => exact .inr (.inr (.inr (.inr (.inr ⟨y, by rw [Option.some.inj hself]⟩))))
  | insert i =>
    obtain rfl := Option.some.inj hself
    rw [effect, setUpdater_updater_self] at hbefore
    cases hbefore
  | leave i =>
    obtain rfl := Option.some.inj hself
    rw [effect, secondSection_updater_self] at hbefore
    cases hbefore
  | countUp i =>
    obtain rfl := Option.some.inj hself
    rw [show (effect s (.countUp i)).updater i = _ from Function.update_self _ _ _] at hbefore
    cases hbefore
  | collect => cases hself
  | setVerbosing value => cases hself
  | stopRun => cases hself

theorem mem_record : x ∈ record hist s e p ↔ e = .insert p ∧ x = s.nextAddr ∨ x ∈ hist p := by
  cases e with
  | insert i =>
    rw [show record hist s (.insert i) = extend hist i s.nextAddr from rfl, mem_extend]
    simp only [Event.insert.injEq, eq_comm]
  | _ => simp [record]

/-- A node keeps the version it was linked in with. -/
theorem version_step (h : Inv hist s) (hstep : Step s e s') (hx : x ∈ hist p) :
    (s'.heap x).version = (s.heap x).version := by
  obtain ⟨henabled, rfl⟩ := hstep
  cases hquiet : e.isQuiet with
  | true => exact (quiet_of_enabled hquiet henabled).version x
  | false =>
    cases e with
    | insert i => exact congrArg _ (h.lists.linkedIn_heap hx)
    | enter i => rfl
    | leave i => rfl
    | _ => cases hquiet

/-- A node is linked in with the version its thread took before. -/
theorem version_new (hstep : Step s (.insert p) s') :
    (s'.heap s.nextAddr).version = (s.updater p).currentVersion := by
  obtain ⟨_, rfl⟩ := hstep
  exact congrArg SinglyNode.version linkedIn_heap_new

theorem registered_step (h : Inv hist s) (hstep : Step s e s') (hreg : Registered s' r p v) :
    Registered s r p v ∨
      e = .enter r ∧ s.InFlight p ∧ (s.updater r).pickedThreadIndex = p ∧
        (s.updater p).currentVersion = v := by
  obtain ⟨henabled, rfl⟩ := hstep
  cases hquiet : e.isQuiet with
  | true => exact .inl (((quiet_of_enabled hquiet henabled).registered_iff r p v).mp hreg)
  | false =>
    cases e with
    | enter i =>
      refine ((registered_firstSection h.tracked henabled r p v).mp hreg).imp_right ?_
      rintro ⟨rfl, hnew⟩
      exact ⟨rfl, hnew⟩
    | insert i => exact .inl ((registered_linkedIn henabled r p v).mp hreg)
    | leave i => exact .inl ((registered_secondSection r p v).mp hreg).2
    | _ => cases hquiet

theorem inFlight_step (h : Inv hist s) (hstep : Step s e s') (hflight : s'.InFlight p) :
    s.InFlight p ∧ (s'.updater p).currentVersion = (s.updater p).currentVersion ∨
      e = .enter p ∧ (s'.updater p).currentVersion = s.atomicCounter + 1 := by
  obtain ⟨henabled, rfl⟩ := hstep
  cases hquiet : e.isQuiet with
  | true =>
    have hquiet := quiet_of_enabled hquiet henabled
    exact .inl ⟨by rwa [State.InFlight, ← hquiet.inFlight], hquiet.current p⟩
  | false =>
    cases e with
    | enter i =>
      by_cases hp : p = i
      · subst hp
        exact .inr ⟨rfl, by rw [effect, firstSection_updater_self h.tracked henabled]⟩
      · left
        rw [State.InFlight, effect, firstSection_updater_of_ne hp] at hflight
        exact ⟨hflight, by rw [effect, firstSection_updater_of_ne hp]⟩
    | insert i => exact .inl ⟨(linkedIn_inFlight henabled p).mp hflight, linkedIn_current p⟩
    | leave i => exact .inl ⟨((secondSection_inFlight p).mp hflight).2, secondSection_current p⟩
    | _ => cases hquiet

/-! ### The newest node below a version -/

/-- No node of `p` below `v` is newer than `x`. -/
def NotPast (hist : Fin n → List Addr) (s : State n) (p : Fin n) (v : ℕ) (x : Addr) : Prop :=
  ∀ w ∈ hist p, (s.heap w).version < v → (s.heap w).version ≤ (s.heap x).version

/-- `w` is the newest node `p` linked in with a version below `v`. -/
structure NewestBelow (hist : Fin n → List Addr) (s : State n) (p : Fin n) (v : ℕ) (w : Addr) :
    Prop where
  mem : w ∈ hist p
  lt : (s.heap w).version < v
  notPast : NotPast hist s p v w

/-- As long as `p` is not about to link in a version below `v`, no event makes a node newer. -/
theorem NotPast.step (hpast : NotPast hist s p v x) (hx : x ∈ hist p) (h : Inv hist s)
    (hstep : Step s e s') (hpending : s.BeforeInsert p → v ≤ (s.updater p).currentVersion) :
    NotPast (record hist s e) s' p v x := by
  intro w hw hlt
  rw [version_step h hstep hx]
  rcases mem_record.mp hw with ⟨rfl, rfl⟩ | hw
  · have hbefore : s.BeforeInsert p := by
      rw [State.BeforeInsert, show (s.updater p).pc = .insert from hstep.1]
      rfl
    rw [version_new hstep] at hlt
    exact absurd (hpending hbefore) (not_le.mpr hlt)
  · rw [version_step h hstep hw] at hlt ⊢
    exact hpast w hw hlt

theorem NewestBelow.step (hnewest : NewestBelow hist s p v w) (h : Inv hist s) (hstep : Step s e s')
    (hpending : s.BeforeInsert p → v ≤ (s.updater p).currentVersion) :
    NewestBelow (record hist s e) s' p v w := by
  refine ⟨mem_record.mpr (.inr hnewest.mem), ?_, hnewest.notPast.step hnewest.mem h hstep hpending⟩
  rw [version_step h hstep hnewest.mem]
  exact hnewest.lt

theorem NewestBelow.unique (hnewest : NewestBelow hist s p v w) (hother : NewestBelow hist s p v x)
    (h : Lists hist s) : w = x := by
  apply h.eq_of_version_eq hnewest.mem hother.mem
  exact le_antisymm (hother.notPast w hnewest.mem hnewest.lt)
    (hnewest.notPast x hother.mem hother.lt)

theorem Inv.registered_le (h : Inv hist s) (hreg : Registered s r p v) :
    v ≤ (s.updater p).currentVersion := by
  obtain ⟨entries, hqueues⟩ := h.queues
  have htaken := (hqueues p).taken v ((hqueues p).mem_of_registered hreg)
  exact_mod_cast htaken.le_current h.lists h.versions

theorem Inv.minimum_lt_registered (h : Inv hist s) (hreg : Registered s r p v) :
    (s.queue p).minimum < v := by
  obtain ⟨entries, hqueues⟩ := h.queues
  exact (hqueues p).minimum_lt v ((hqueues p).mem_of_registered hreg)

/-- A version above `minimum` has its newest node below it at `minimum` or above. -/
theorem NewestBelow.minimum_le (hnewest : NewestBelow hist s p v w) (h : Inv hist s)
    (hlt : (s.queue p).minimum < v) : (s.queue p).minimum ≤ (s.heap w).version := by
  obtain ⟨entries, hqueues⟩ := h.queues
  obtain ⟨x, hx, heq⟩ := (hqueues p).minimum_inserted
  rw [← heq] at hlt ⊢
  exact_mod_cast hnewest.notPast x hx (by exact_mod_cast hlt)

/-! ### Where the node comes from -/

/-- During the run `p` took version `v`, and `w` headed its list at that moment. -/
def TookVersion (start : State n) (trace : List (Event n)) (p : Fin n) (v : ℕ) (w : Addr) : Prop :=
  ∃ post pre s₀, trace = post ++ .enter p :: pre ∧ Run Step start pre s₀ ∧
    v = s₀.atomicCounter + 1 ∧ w = s₀.singlyList p

theorem TookVersion.cons {start : State n} {trace : List (Event n)}
    (h : TookVersion start trace p v w) : TookVersion start (e :: trace) p v w := by
  obtain ⟨post, pre, s₀, rfl, hrun, hv, hw⟩ := h
  exact ⟨e :: post, pre, s₀, rfl, hrun, hv, hw⟩

/-- The head is the newest node below any version above its own. -/
theorem Inv.newestBelow_head (h : Inv hist s) (hlt : (s.heap (s.singlyList p)).version < v) :
    NewestBelow hist s p v (s.singlyList p) :=
  ⟨h.lists.head_mem p, hlt, fun _ hx _ => h.lists.version_le_head hx⟩

/-- Every version in use, held by its thread or registered by a reader, was taken by its thread from
above the newest node below it. -/
theorem tookVersion_of_run {a b : Fin n → BitVec 32} {trace : List (Event n)}
    (hrun : Run Step (initial a b) trace s)
    (huse : s.InFlight p ∧ (s.updater p).currentVersion = v ∨ ∃ r, Registered s r p v) :
    ∃ w, TookVersion (initial a b) trace p v w ∧ NewestBelow (history trace) s p v w := by
  induction hrun generalizing p v with
  | nil =>
    rcases huse with ⟨hflight, _⟩ | ⟨r, hflight, _⟩ <;> cases hflight
  | @cons trace s s' e hrun hstep ih =>
    have h := inv_of_run hrun
    rw [history_cons e (nextAddr_of_run hrun)]
    -- a version in use before the event
    have hold : s.InFlight p ∧ (s.updater p).currentVersion = v ∨ (∃ r, Registered s r p v) →
        ∃ w, TookVersion (initial a b) (e :: trace) p v w ∧
          NewestBelow (record (history trace) s e) s' p v w := by
      intro huse
      obtain ⟨w, htook, hnewest⟩ := ih huse
      refine ⟨w, htook.cons, hnewest.step h hstep fun _ => ?_⟩
      rcases huse with ⟨_, rfl⟩ | ⟨r, hreg⟩
      · exact le_rfl
      · exact h.registered_le hreg
    rcases huse with ⟨hflight, rfl⟩ | ⟨r, hreg⟩
    · rcases inFlight_step h hstep hflight with ⟨hflight, hcurrent⟩ | ⟨rfl, hcurrent⟩
      · rw [hcurrent] at hold ⊢
        exact hold (.inl ⟨hflight, rfl⟩)
      · rw [hcurrent]
        refine ⟨s.singlyList p, ⟨[], trace, s, rfl, hrun, rfl, rfl⟩, ?_⟩
        have hidle : ¬ s.BeforeInsert p := by
          rw [State.BeforeInsert, show (s.updater p).pc = .enter from hstep.1]
          decide
        refine (h.newestBelow_head ?_).step h hstep fun hbefore => absurd hbefore hidle
        rw [h.versions.settled p hidle]
        exact Nat.lt_succ_of_le (h.versions.le_counter p)
    · rcases registered_step h hstep hreg with hreg | ⟨_, hflight, _, hcurrent⟩
      · exact hold (.inr ⟨r, hreg⟩)
      · exact hold (.inl ⟨hflight, hcurrent⟩)

end Multicore.Mvcc
