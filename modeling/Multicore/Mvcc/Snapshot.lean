import Multicore.Mvcc.Readers

/-!
# What an update reads, compared with what was committed

An update should use the newest node of the picked thread that was committed when the update captured
the active list. A registered reader does. A reader that did not find its thread active takes whatever
heads the list later, when it reads the head pointer, and in between the thread may have linked in a
node of a newer version.
-/

namespace Multicore.Mvcc

variable {n : ℕ} {hist : Fin n → List Addr} {s s' : State n} {e : Event n} {r p : Fin n} {w x : Addr}

/-- `x` is linked in and its thread is no longer active for it. -/
def Committed (s : State n) (p : Fin n) (x : Addr) : Prop :=
  InList s p x ∧ (⟨p, (s.heap x).version⟩ : ActiveNode n) ∉ s.activeList

structure NewestCommitted (s : State n) (p : Fin n) (x : Addr) : Prop where
  committed : Committed s p x
  newest : ∀ y, Committed s p y → (s.heap y).version ≤ (s.heap x).version

/-- The version below which an updater should read: the registered one, or its own. -/
def Updater.view (u : Updater n) : ℕ :=
  if u.isThreadActive then u.activeThreadVersion else u.currentVersion

/-! ### The capture -/

theorem Inv.newestCommitted_head (h : Inv hist s) (hidle : ¬ s.InFlight p) :
    NewestCommitted s p (s.singlyList p) := by
  refine ⟨⟨.refl, fun hmem => ?_⟩, fun y hy => h.lists.version_le_head (hy.1.mem h.lists)⟩
  exact hidle ((h.active.mem_iff p _).mp hmem).1

theorem Inv.newestCommitted_below (h : Inv hist s) (hflight : s.InFlight p)
    (hnewest : NewestBelow hist s p (s.updater p).currentVersion w) : NewestCommitted s p w := by
  obtain ⟨entries, hqueues⟩ := h.queues
  have hmin := hnewest.minimum_le h ((hqueues p).minimum_lt_of_inFlight h.versions hflight)
  refine ⟨⟨h.lists.inList_of_minimum_le hnewest.mem hmin, fun hmem => ?_⟩, fun y hy => ?_⟩
  · exact absurd ((h.active.mem_iff p _).mp hmem).2 hnewest.lt.ne
  · have hy' := hy.1.mem h.lists
    have hne : (s.heap y).version ≠ (s.updater p).currentVersion := fun heq =>
      hy.2 ((h.active.mem_iff p _).mpr ⟨hflight, heq⟩)
    exact hnewest.notPast y hy' (lt_of_le_of_ne (h.versions.le_current h.lists hy') hne)

/-! ### From the capture on -/

/-- `w` is what thread `r` should read: the newest node below its view, which the picked thread will
not add to. -/
structure Snapshot (hist : Fin n → List Addr) (s : State n) (r : Fin n) (w : Addr) : Prop where
  newest : NewestBelow hist s (s.updater r).pickedThreadIndex (s.updater r).view w
  pending : s.InFlight (s.updater r).pickedThreadIndex →
    (s.updater r).view ≤ (s.updater (s.updater r).pickedThreadIndex).currentVersion
  view_le : (s.updater r).view ≤ (s.updater r).currentVersion

/-- Between its critical sections a thread keeps its version, its pick and its registration. -/
theorem locals_step (hstep : Step s e s') (hflight : s.InFlight r) (hne : e ≠ .enter r) :
    (s'.updater r).currentVersion = (s.updater r).currentVersion ∧
      (s'.updater r).isThreadActive = (s.updater r).isThreadActive ∧
      (s'.updater r).pickedThreadIndex = (s.updater r).pickedThreadIndex ∧
      (s'.updater r).activeThreadVersion = (s.updater r).activeThreadVersion := by
  obtain ⟨henabled, rfl⟩ := hstep
  by_cases hself : e.thread = some r
  · cases hquiet : e.isQuiet with
    | true =>
      have hquiet := quiet_of_enabled hquiet henabled
      exact ⟨hquiet.current r, hquiet.registration r hflight⟩
    | false =>
      cases e with
      | enter i =>
        obtain rfl := Option.some.inj hself
        exact absurd rfl hne
      | insert i =>
        obtain rfl := Option.some.inj hself
        rw [show (effect s (.insert i)).updater i = _ from linkedIn_updater_self]
        exact ⟨rfl, rfl, rfl, rfl⟩
      | leave i =>
        obtain rfl := Option.some.inj hself
        rw [show (effect s (.leave i)).updater i = _ from secondSection_updater_self]
        exact ⟨rfl, rfl, rfl, rfl⟩
      | _ => cases hquiet
  · rw [updater_effect_of_ne hself]
    exact ⟨rfl, rfl, rfl, rfl⟩

theorem Snapshot.step (hsnap : Snapshot hist s r w) (h : Inv hist s) (hflight : s.InFlight r)
    (hstep : Step s e s') (hne : e ≠ .enter r) : Snapshot (record hist s e) s' r w := by
  obtain ⟨hcurrent, hactive, hpicked, hversion⟩ := locals_step hstep hflight hne
  have hview : (s'.updater r).view = (s.updater r).view := by
    simp only [Updater.view, hcurrent, hactive, hversion]
  refine ⟨?_, ?_, ?_⟩ <;> rw [hview]
  · rw [hpicked]
    refine hsnap.newest.step h hstep fun hbefore => hsnap.pending ?_
    exact UpdaterPc.inFlight_of_beforeInsert hbefore
  · rw [hpicked]
    intro hin
    rcases inFlight_step h hstep hin with ⟨hin, hsame⟩ | ⟨_, hnew⟩
    · rw [hsame]
      exact hsnap.pending hin
    · rw [hnew]
      exact hsnap.view_le.trans ((h.versions.le_counter r).trans (Nat.le_succ _))
  · rw [hcurrent]
    exact hsnap.view_le

/-- The capture fixes what the thread should read. -/
theorem exists_snapshot_enter {a b : Fin n → BitVec 32} {trace : List (Event n)}
    (hrun : Run Step (initial a b) trace s) (hstep : Step s (.enter r) s') :
    ∃ w, NewestCommitted s (s'.updater r).pickedThreadIndex w ∧ Snapshot (history trace) s' r w := by
  have h := inv_of_run hrun
  have heq : s' = firstSection s r := hstep.2
  have hself := firstSection_updater_self h.tracked hstep.1
  rw [← heq] at hself
  set p := (s.updater r).pickedThreadIndex
  have hpr : p ≠ r := h.picked_ne r (.inl hstep.1)
  have hpicked : (s'.updater r).pickedThreadIndex = p := by rw [hself]
  have hother : s'.updater p = s.updater p := by
    rw [heq]
    exact firstSection_updater_of_ne hpr
  have hle := h.versions.le_counter p
  have hpending : s.BeforeInsert p → _ := fun hbefore =>
    UpdaterPc.inFlight_of_beforeInsert hbefore
  rw [hpicked]
  by_cases hflight : s.InFlight p
  · have hview : (s'.updater r).view = (s.updater p).currentVersion := by
      rw [hself]
      simp [Updater.view, hflight]
    obtain ⟨w, _, hnewest⟩ := tookVersion_of_run hrun (.inl ⟨hflight, rfl⟩)
    refine ⟨w, h.newestCommitted_below hflight hnewest, ?_, ?_, ?_⟩ <;> rw [hview]
    · rw [hpicked]
      exact hnewest.step h hstep fun _ => le_rfl
    · rw [hpicked, hother]
      exact fun _ => le_rfl
    · rw [hself]
      exact hle.trans (Nat.le_succ _)
  · have hview : (s'.updater r).view = s.atomicCounter + 1 := by
      rw [hself]
      simp [Updater.view, hflight]
    refine ⟨s.singlyList p, h.newestCommitted_head hflight, ?_, ?_, ?_⟩ <;> rw [hview]
    · rw [hpicked]
      refine (h.newestBelow_head ?_).step h hstep fun hbefore => absurd (hpending hbefore) hflight
      exact Nat.lt_succ_of_le ((h.versions.le_current h.lists (h.lists.head_mem p)).trans hle)
    · rw [hpicked, State.InFlight, hother]
      exact fun hin => absurd hin hflight
    · rw [hself]

/-! ### The node under the cursor -/

/-- A reader that did not find its picked thread active reads a head older than its own version: the
thread has linked in no newer node since the capture. -/
def HeadOlder (s : State n) : Event n → Prop
  | .readHead r => (s.updater r).isThreadActive = false →
      (s.heap (s.singlyList (s.updater r).pickedThreadIndex)).version < (s.updater r).currentVersion
  | _ => True

instance (s : State n) : ∀ e : Event n, Decidable (HeadOlder s e)
  | .readHead _ => inferInstanceAs (Decidable (_ → _))
  | .testRun _ | .pick _ _ | .enter _ | .readOwn _ | .search _ | .readA _ _ | .readAAgain _ _ | .insert _
  | .leave _ | .countUp _ | .collect | .setVerbosing _ | .stopRun => inferInstanceAs (Decidable True)

/-- The cursor of a reader that is not registered stays where the head was read. -/
theorem Snapshot.cursor_step (hsnap : Snapshot hist s r w) (h : Inv hist s)
    (hok : CursorOk hist s (s.updater r)) (hstep : Step s e s') (holder : HeadOlder s e)
    (hflight : s.InFlight r) (hne : e ≠ .enter r)
    (hcursor : (s.updater r).isThreadActive = false → (s.updater r).pc.holdsCursor = true →
      (s.updater r).cursorSinglyNode = some w)
    (hidle : (s'.updater r).isThreadActive = false) (hholds : (s'.updater r).pc.holdsCursor = true) :
    (s'.updater r).cursorSinglyNode = some w := by
  rw [(locals_step hstep hflight hne).2.1] at hidle
  by_cases hself : e.thread = some r
  · rcases holdsCursor_step hstep hself hholds with rfl | rfl | rfl | ⟨y, rfl⟩ <;>
      obtain ⟨henabled, rfl⟩ := hstep
    · have hnewest := hsnap.newest
      rw [Updater.view, hidle] at hnewest
      rw [effect, setUpdater_updater_self, hnewest.unique (h.newestBelow_head (holder hidle)) h.lists]
    · rw [effect, setUpdater_updater_self]
      exact hcursor hidle (by rw [show (s.updater r).pc = _ from henabled]; rfl)
    · obtain ⟨_, _, _, hactive, _⟩ := hok (by rw [henabled.1]; rfl)
      exact absurd (hidle.symm.trans (hactive henabled.1)) Bool.false_ne_true
    · rw [effect, setUpdater_updater_self]
      exact hcursor hidle (by rw [henabled.1]; rfl)
  · have hsame : s'.updater r = s.updater r := by
      rw [hstep.2]
      exact updater_effect_of_ne hself
    rw [hsame] at hholds ⊢
    exact hcursor hidle hholds

/-- The induction is on the events after the capture. -/
theorem snapshot_of_run {a b : Fin n → BitVec 32} {post pre : List (Event n)}
    (hrun : Run (Restrict Step HeadOlder) (initial a b) (post ++ .enter r :: pre) s)
    (hlast : .enter r ∉ post) (hflight : s.InFlight r) :
    ∃ s₀ w, Run Step (initial a b) pre s₀ ∧ NewestCommitted s₀ (s.updater r).pickedThreadIndex w ∧
      Snapshot (history (post ++ .enter r :: pre)) s r w ∧
      ((s.updater r).isThreadActive = false → (s.updater r).pc.holdsCursor = true →
        (s.updater r).cursorSinglyNode = some w) := by
  induction post generalizing s with
  | nil =>
    cases hrun with
    | @cons _ s₀ _ _ hrun hstep =>
      obtain ⟨w, hcommitted, hsnap⟩ := exists_snapshot_enter hrun.of_restrict hstep.1
      refine ⟨s₀, w, hrun.of_restrict, hcommitted, hsnap, fun _ hholds => ?_⟩
      rcases holdsCursor_step hstep.1 rfl hholds with heq | heq | heq | ⟨y, heq⟩ <;> cases heq
  | cons e post ih =>
    rw [List.cons_append] at hrun ⊢
    cases hrun with
    | @cons _ s _ _ hrun hstep =>
      rw [List.mem_cons, not_or] at hlast
      have hne : e ≠ .enter r := fun heq => hlast.1 heq.symm
      have h := inv_of_run hrun.of_restrict
      have hbefore : s.InFlight r := by
        rcases inFlight_step h hstep.1 hflight with ⟨hin, _⟩ | ⟨heq, _⟩
        · exact hin
        · exact absurd heq hne
      obtain ⟨s₀, w, hpre, hcommitted, hsnap, hcursor⟩ := ih hrun hlast.2 hbefore
      rw [history_cons e (nextAddr_of_run hrun.of_restrict)]
      refine ⟨s₀, w, hpre, ?_, hsnap.step h hbefore hstep.1 hne, hsnap.cursor_step h
        (cursorOk_of_run hrun.of_restrict r) hstep.1 hstep.2 hbefore hne hcursor⟩
      rw [(locals_step hstep.1 hbefore hne).2.2.1]
      exact hcommitted

/-- Thread `0` captures the active list while thread `1` is idle, and goes on to read thread `1`'s
head at once. -/
def promptReader : List (Event 2) :=
  [.testRun 0, .pick 0 1, .enter 0, .readHead 0, .readOwn 0]

/-- Thread `0` captures the active list while thread `1` is idle; before it reads thread `1`'s head,
thread `1` takes version `2` and links its node in. -/
def lateReader : List (Event 2) :=
  [.testRun 0, .pick 0 1, .enter 0, .testRun 1, .pick 1 0, .enter 1, .readHead 1, .readOwn 1,
    .search 1, .readA 1 5, .readAAgain 1 5, .insert 1, .readHead 0, .readOwn 0]

end Multicore.Mvcc
