import Multicore.Mvcc.Views

/-!
# A registered reader finds its node

The cursor of a reader walks down the picked thread's list. For a registered reader it never passes
the newest node below the registered version, so every node it stands on is at least as new as
`minimum`: the collector has neither freed it nor cut the way to the node the reader asks for.
-/

namespace Multicore.Mvcc

variable {n : ℕ} {hist : Fin n → List Addr} {s s' : State n} {e : Event n} {r p : Fin n} {v : ℕ}
  {x w : Addr}

/-! ### Reachable nodes -/

/-- The nodes reached from the head of `p`'s list by following links. -/
def InList (s : State n) (p : Fin n) (x : Addr) : Prop :=
  Relation.ReflTransGen (fun y z => (s.heap y).link = some z) (s.singlyList p) x

theorem InList.mem (h : InList s p x) (hlists : Lists hist s) : x ∈ hist p := by
  induction h with
  | refl => exact hlists.head_mem p
  | tail _ hlink ih => exact (hlists.consecutive_of_link ih hlink).mem_right

/-- Nothing from `minimum` upwards has been cut off. -/
theorem Lists.inList_of_minimum_le (h : Lists hist s) (hx : x ∈ hist p)
    (hle : (s.queue p).minimum ≤ (s.heap x).version) : InList s p x := by
  refine (reflTransGen_of_consecutive (P := fun y => (s.queue p).minimum ≤ (s.heap y).version)
    (h.head p) (fun y z hyz hz => ?_) (fun y z hyz hz => ?_) hx hle).1
  · rcases h.link p y z hyz with hlink | ⟨_, hlt⟩
    · exact hlink
    · exact absurd hz (not_le.mpr hlt)
  · have hlt : (s.heap z).version < (s.heap y).version := hyz.rel (h.sorted p)
    exact hz.trans (by exact_mod_cast hlt.le)

/-- Nothing from `minimum` upwards has been freed. -/
theorem Lists.not_freed_of_minimum_le (h : Lists hist s) (hx : x ∈ hist p)
    (hle : (s.queue p).minimum ≤ (s.heap x).version) : s.freed x = false := by
  by_contra hfreed
  exact absurd (h.freed p x hx (by simpa using hfreed)) (not_lt.mpr hle)

/-! ### The cursor -/

/-- From the read of the head pointer to the last read of `A`. -/
def UpdaterPc.holdsCursor : UpdaterPc → Bool
  | .readOwn | .search | .readA | .readAAgain => true
  | _ => false

/-- The cursor is set and stands on a node of the picked thread. Only registered readers search; the
cursor of one has not passed the newest node below the registered version, and it is below that
version when the search is over. -/
def CursorOk (hist : Fin n → List Addr) (s : State n) (u : Updater n) : Prop :=
  u.pc.holdsCursor = true → ∃ x, u.cursorSinglyNode = some x ∧ x ∈ hist u.pickedThreadIndex ∧
    (u.pc = .search → u.isThreadActive = true) ∧
    (u.isThreadActive = true →
      NotPast hist s u.pickedThreadIndex u.activeThreadVersion x ∧
      (u.pc = .readA ∨ u.pc = .readAAgain → (s.heap x).version < u.activeThreadVersion))

theorem UpdaterPc.beforeInsert_of_holdsCursor {pc : UpdaterPc} (h : pc.holdsCursor = true) :
    pc.beforeInsert = true := by
  cases pc <;> first | rfl | cases h

/-- A cursor with a version still to be found below it is not at the end of the list: either the
search is over, or the link leads on to a node that is not past that version either. -/
theorem Inv.link_of_notPast (h : Inv hist s) (hreg : Registered s r p v) (hx : x ∈ hist p)
    (hpast : NotPast hist s p v x) (hle : ¬ (s.heap x).version < v) :
    ∃ y, (s.heap x).link = some y ∧ y ∈ hist p ∧ NotPast hist s p v y := by
  obtain ⟨entries, hqueues⟩ := h.queues
  obtain ⟨m, hm, hversion⟩ := (hqueues p).minimum_inserted
  have hlt : (s.heap m).version < v := by
    have hlt := h.minimum_lt_registered hreg
    rw [← hversion] at hlt
    exact_mod_cast hlt
  rcases last_or_consecutive hx with hlast | ⟨y, hxy⟩
  · have hzero := (h.lists.last p x hlast).2
    omega
  · -- the node with version `minimum` is below `x`, hence `y` itself or further down
    have hbehind : ∀ z ∈ hist p, (s.heap z).version < v →
        (s.heap z).version ≤ (s.heap y).version := by
      intro z hz hzlt
      rcases hxy.before_or_after (h.lists.sorted p) hz with rfl | hxz | rfl | hyz
      · exact absurd hzlt hle
      · omega
      · exact le_rfl
      · exact hyz.le
    refine ⟨y, ?_, hxy.mem_right, hbehind⟩
    rcases h.lists.link p x y hxy with hlink | ⟨_, hcut⟩
    · exact hlink
    · have := hbehind m hm hlt
      rw [← hversion] at hcut
      omega

theorem registered_of_holdsCursor (hpc : (s.updater r).pc.holdsCursor = true)
    (hactive : (s.updater r).isThreadActive = true) :
    Registered s r (s.updater r).pickedThreadIndex (s.updater r).activeThreadVersion :=
  ⟨UpdaterPc.inFlight_of_beforeInsert (UpdaterPc.beforeInsert_of_holdsCursor hpc), hactive, rfl, rfl⟩

theorem CursorOk.step_other (hok : CursorOk hist s (s.updater r)) (h : Inv hist s)
    (hstep : Step s e s') (hne : e.thread ≠ some r) :
    CursorOk (record hist s e) s' (s'.updater r) := by
  have hsame : s'.updater r = s.updater r := by
    rw [hstep.2]
    exact updater_effect_of_ne hne
  rw [hsame]
  intro hpc
  obtain ⟨x, hcursor, hmem, hsearch, hactive⟩ := hok hpc
  refine ⟨x, hcursor, mem_record.mpr (.inr hmem), hsearch, fun hact => ?_⟩
  have hreg := registered_of_holdsCursor hpc hact
  rw [version_step h hstep hmem]
  exact ⟨(hactive hact).1.step hmem h hstep fun _ => h.registered_le hreg, (hactive hact).2⟩

theorem CursorOk.search (hok : CursorOk hist s (s.updater r)) (h : Inv hist s)
    (hpc : (s.updater r).pc = .search) :
    CursorOk hist (searchStep s r) ((searchStep s r).updater r) := by
  have hholds : (s.updater r).pc.holdsCursor = true := by
    rw [hpc]
    rfl
  obtain ⟨x, hcursor, hmem, hsearch, hactive⟩ := hok hholds
  have hact := hsearch hpc
  by_cases hlt : (s.heap x).version < (s.updater r).activeThreadVersion
  · rw [searchStep_stop hcursor hlt, setUpdater_updater_self]
    exact fun _ => ⟨x, hcursor, hmem, fun _ => hact, fun hact => ⟨(hactive hact).1, fun _ => hlt⟩⟩
  · rw [searchStep_follow hcursor hlt, setUpdater_updater_self]
    intro _
    obtain ⟨y, hlink, hy, hpast⟩ :=
      h.link_of_notPast (registered_of_holdsCursor hholds hact) hmem (hactive hact).1 hlt
    refine ⟨y, hlink, hy, fun _ => hact, fun _ => ⟨hpast, fun hread => ?_⟩⟩
    rw [hpc] at hread
    rcases hread with hread | hread <;> cases hread

theorem CursorOk.readOwn (hok : CursorOk hist s (s.updater r)) (hpc : (s.updater r).pc = .readOwn) :
    CursorOk hist s ((effect s (.readOwn r)).updater r) := by
  obtain ⟨x, hcursor, hmem, _, hactive⟩ := hok (by rw [hpc]; rfl)
  rw [effect, setUpdater_updater_self]
  intro _
  by_cases hact : (s.updater r).isThreadActive = true
  · refine ⟨x, hcursor, hmem, fun _ => hact, fun _ => ⟨(hactive hact).1, fun hread => ?_⟩⟩
    rw [if_pos hact] at hread
    rcases hread with hread | hread <;> cases hread
  · refine ⟨x, hcursor, hmem, fun hsearch => ?_, fun hact' => absurd hact' hact⟩
    rw [if_neg hact] at hsearch
    cases hsearch

/-- The events after which their thread holds a cursor. -/
theorem holdsCursor_step (hstep : Step s e s') (hself : e.thread = some r)
    (hholds : (s'.updater r).pc.holdsCursor = true) :
    e = .readHead r ∨ e = .readOwn r ∨ e = .search r ∨ ∃ y, e = .readA r y := by
  rcases beforeInsert_step hstep hself (UpdaterPc.beforeInsert_of_holdsCursor hholds) with
    rfl | hread | hread | hread | hread | ⟨y, rfl⟩
  · rw [hstep.2, show (effect s (.enter r)).updater r = _ from Function.update_self _ _ _] at hholds
    cases hholds
  · exact .inl hread
  · exact .inr (.inl hread)
  · exact .inr (.inr (.inl hread))
  · exact .inr (.inr (.inr hread))
  · rw [hstep.2, effect, setUpdater_updater_self] at hholds
    cases hholds

theorem CursorOk.step_self (hok : CursorOk hist s (s.updater r)) (h : Inv hist s)
    (hstep : Step s e s') (hself : e.thread = some r) :
    CursorOk (record hist s e) s' (s'.updater r) := by
  intro hholds
  rcases holdsCursor_step hstep hself hholds with rfl | rfl | rfl | ⟨y, rfl⟩ <;>
    obtain ⟨henabled, rfl⟩ := hstep <;> revert hholds
  · -- the head is newer than every node of the list
    simp only [effect, setUpdater_updater_self]
    intro _
    refine ⟨_, rfl, h.lists.head_mem _, fun hsearch => ?_, fun _ => ⟨?_, fun hread => ?_⟩⟩
    · cases hsearch
    · exact fun w hw _ => h.lists.version_le_head hw
    · rcases hread with hread | hread <;> cases hread
  · exact hok.readOwn henabled
  · exact hok.search h henabled.1
  · simp only [effect, setUpdater_updater_self]
    intro _
    obtain ⟨x, hcursor, hmem, _, hactive⟩ := hok (by rw [henabled.1]; rfl)
    refine ⟨x, hcursor, hmem, fun hsearch => ?_, fun hact => ⟨(hactive hact).1, fun _ => ?_⟩⟩
    · cases hsearch
    · exact (hactive hact).2 (.inl henabled.1)

theorem CursorOk.step (hok : CursorOk hist s (s.updater r)) (h : Inv hist s) (hstep : Step s e s') :
    CursorOk (record hist s e) s' (s'.updater r) := by
  by_cases hself : e.thread = some r
  · exact hok.step_self h hstep hself
  · exact hok.step_other h hstep hself

theorem cursorOk_of_run {a b : Fin n → BitVec 32} {trace : List (Event n)}
    (hrun : Run Step (initial a b) trace s) (r : Fin n) :
    CursorOk (history trace) s (s.updater r) := by
  induction hrun with
  | nil => exact fun hholds => by cases hholds
  | @cons trace s s' e hrun hstep ih =>
    rw [history_cons e (nextAddr_of_run hrun)]
    exact ih.step (inv_of_run hrun) hstep

/-! ### What the collector leaves a registered reader -/

/-- All of `p`'s nodes from its newest one down to the newest below a registered version are in the
list and have not been freed. -/
theorem Inv.keeps_registered (h : Inv hist s) (hreg : Registered s r p v)
    (hnewest : NewestBelow hist s p v w) (hx : x ∈ hist p)
    (hle : (s.heap w).version ≤ (s.heap x).version) : InList s p x ∧ s.freed x = false := by
  have hmin := hnewest.minimum_le h (h.minimum_lt_registered hreg)
  have hxmin : (s.queue p).minimum ≤ (s.heap x).version := hmin.trans (by exact_mod_cast hle)
  exact ⟨h.lists.inList_of_minimum_le hx hxmin, h.lists.not_freed_of_minimum_le hx hxmin⟩

/-- While a reader that found `p` active with version `v` is between its critical sections, the node
`w` which headed `p`'s list when `p` took `v` is still in the list and is the newest one below `v`.
Nothing from the head down to `w` has been freed, so neither has the node under the cursor, and the
search ends at `w`. -/
theorem registered_reader_finds_its_node {a b : Fin n → BitVec 32} {trace : List (Event n)}
    (hrun : Run Step (initial a b) trace s) (hreg : Registered s r p v) :
    ∃ post pre s₀ w, trace = post ++ .enter p :: pre ∧ Run Step (initial a b) pre s₀ ∧
      v = s₀.atomicCounter + 1 ∧ w = s₀.singlyList p ∧
      InList s p w ∧ (s.heap w).version < v ∧
      (∀ x, InList s p x → (s.heap x).version < v →
        x = w ∨ (s.heap x).version < (s.heap w).version) ∧
      (∀ x, InList s p x → (s.heap w).version ≤ (s.heap x).version → s.freed x = false) ∧
      ((s.updater r).pc.holdsCursor = true →
        ∃ x, (s.updater r).cursorSinglyNode = some x ∧ InList s p x ∧ s.freed x = false) ∧
      ((s.updater r).pc = .readA ∨ (s.updater r).pc = .readAAgain →
        (s.updater r).cursorSinglyNode = some w) := by
  have h := inv_of_run hrun
  obtain ⟨w, ⟨post, pre, s₀, htrace, hpre, hv, hw⟩, hnewest⟩ := tookVersion_of_run hrun (.inr ⟨r, hreg⟩)
  have hkeeps := fun x hx hle => h.keeps_registered hreg hnewest (x := x) hx hle
  have hcursor := cursorOk_of_run hrun r
  obtain ⟨_, hactive, rfl, rfl⟩ := hreg
  refine ⟨post, pre, s₀, w, htrace, hpre, hv, hw, (hkeeps w hnewest.mem le_rfl).1, hnewest.lt, ?_, ?_,
    ?_, ?_⟩
  · intro x hx hlt
    have hle := hnewest.notPast x (hx.mem h.lists) hlt
    rcases hle.eq_or_lt with heq | hless
    · exact .inl (h.lists.eq_of_version_eq (hx.mem h.lists) hnewest.mem heq)
    · exact .inr hless
  · exact fun x hx hle => (hkeeps x (hx.mem h.lists) hle).2
  · intro hholds
    obtain ⟨x, hsome, hmem, _, hact⟩ := hcursor hholds
    exact ⟨x, hsome, hkeeps x hmem ((hact hactive).1 w hnewest.mem hnewest.lt)⟩
  · intro hread
    obtain ⟨x, hsome, hmem, _, hact⟩ := hcursor (by rcases hread with hpc | hpc <;> rw [hpc] <;> rfl)
    obtain ⟨hpast, hbelow⟩ := hact hactive
    have hfound : NewestBelow (history trace) s _ _ x := ⟨hmem, hbelow hread, hpast⟩
    rw [hsome, hnewest.unique hfound h.lists]

/-- Thread `0` takes version `1`, thread `1` picks it, registers that version and reads the head. -/
def overlapping : List (Event 2) :=
  [.testRun 0, .pick 0 1, .enter 0, .testRun 1, .pick 1 0, .enter 1, .readHead 1, .readOwn 1,
    .search 1]

theorem registered_reader_finds_its_node_overlapping :
    let s := execute effect (initial (fun _ => 5) fun _ => 7) overlapping
    Registered s 1 0 1 ∧ ∃ w, InList s 0 w ∧ (s.heap w).version < 1 ∧
      (s.updater 1).cursorSinglyNode = some w := by
  intro s
  have hrun : Run Step (initial (fun _ => 5) fun _ => 7) overlapping.reverse s :=
    run_execute (by decide)
  have hreg : Registered s 1 0 1 := by decide
  obtain ⟨_, _, _, w, _, _, _, _, hin, hlt, _, _, _, hcursor⟩ :=
    registered_reader_finds_its_node hrun hreg
  exact ⟨hreg, w, hin, hlt, hcursor (by decide)⟩

end Multicore.Mvcc
