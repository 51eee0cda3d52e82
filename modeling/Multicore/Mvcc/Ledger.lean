import Mathlib.Algebra.BigOperators.Group.List.Basic
import Mathlib.Data.Fin.VecNotation
import Mathlib.Data.List.Range
import Multicore.Mvcc.Readers

/-!
# The ledger of versions

A run takes versions in the first critical section and links nodes in outside of any. The two lists
below record both, with the thread. Versions are taken in order, `1, 2, 3, …`; they are linked in in
any order, but each by the thread that took it and once only, and none is left behind when the threads
have returned.
-/

namespace Multicore.Mvcc

variable {n : ℕ} {hist : Fin n → List Addr} {s s' : State n} {e : Event n}
  {took linked : List (Fin n × ℕ)}

/-! ### What a run takes and links in -/

/-- The version an event takes. -/
def taking (s : State n) : Event n → List (Fin n × ℕ)
  | .enter i => [(i, ((effect s (.enter i)).updater i).currentVersion)]
  | _ => []

/-- The version an event links in: that of the head it leaves. -/
def linking (s : State n) : Event n → List (Fin n × ℕ)
  | .insert i =>
    [(i, ((effect s (.insert i)).heap ((effect s (.insert i)).singlyList i)).version)]
  | _ => []

/-- The versions taken during a run, latest first. -/
def takes (start : State n) : List (Event n) → List (Fin n × ℕ)
  | [] => []
  | e :: trace => taking (replay effect start trace) e ++ takes start trace

/-- The versions linked in during a run, latest first. -/
def links (start : State n) : List (Event n) → List (Fin n × ℕ)
  | [] => []
  | e :: trace => linking (replay effect start trace) e ++ links start trace

/-- The node is linked in and the update not counted yet. -/
def UpdaterPc.afterInsert : UpdaterPc → Bool
  | .leave | .countUp => true
  | _ => false

structure Ledger (took linked : List (Fin n × ℕ)) (hist : Fin n → List Addr) (s : State n) : Prop where
  took_eq : took.map Prod.snd = (List.range' 1 s.atomicCounter).reverse
  linked_took : ∀ entry ∈ linked, entry ∈ took
  linked_nodup : linked.Nodup
  pending : ∀ i, s.BeforeInsert i →
    (i, (s.updater i).currentVersion) ∈ took ∧ (i, (s.updater i).currentVersion) ∉ linked
  settled : ∀ i v, (i, v) ∈ took → (i, v) ∈ linked ∨ s.BeforeInsert i ∧ (s.updater i).currentVersion = v
  nodes : ∀ p, ∀ a ∈ hist p, (s.heap a).version = 0 ∨ (p, (s.heap a).version) ∈ linked
  counted : ∀ i, s.threadThroughput i + (s.updater i).pc.afterInsert.toNat =
    (linked.map Prod.fst).count i

theorem ledger_initial (a b : Fin n → BitVec 32) : Ledger [] [] (history []) (initial a b) where
  took_eq := rfl
  linked_took _ hmem := absurd hmem List.not_mem_nil
  linked_nodup := List.nodup_nil
  pending i hbefore := by cases hbefore
  settled _ _ hmem := absurd hmem List.not_mem_nil
  nodes p x hx := by
    rw [List.mem_singleton.mp hx, initial_heap]
    exact .inl rfl
  counted _ := rfl

/-! ### One event -/

namespace Ledger

theorem mem_took (h : Ledger took linked hist s) {i : Fin n} {v : ℕ} (hmem : (i, v) ∈ took) :
    1 ≤ v ∧ v ≤ s.atomicCounter := by
  have hv : v ∈ took.map Prod.snd := List.mem_map.mpr ⟨_, hmem, rfl⟩
  rw [h.took_eq, List.mem_reverse, List.mem_range'_1] at hv
  omega

theorem took_nodup (h : Ledger took linked hist s) : (took.map Prod.snd).Nodup := by
  rw [h.took_eq, List.nodup_reverse]
  exact List.nodup_range'

/-- A version is taken by one thread. -/
theorem thread_unique (h : Ledger took linked hist s) {i j : Fin n} {v : ℕ} (hi : (i, v) ∈ took)
    (hj : (j, v) ∈ took) : i = j :=
  congrArg Prod.fst (List.inj_on_of_nodup_map h.took_nodup hi hj rfl)

/-- A quiet event that counts no update, or counts one that was linked in, leaves the ledger. -/
theorem quiet (h : Ledger took linked hist s) (hquiet : Quiet s s')
    (hcounted : ∀ i, s'.threadThroughput i + (s'.updater i).pc.afterInsert.toNat =
      s.threadThroughput i + (s.updater i).pc.afterInsert.toNat) : Ledger took linked hist s' := by
  constructor
  case took_eq => rw [hquiet.atomicCounter]; exact h.took_eq
  case linked_took => exact h.linked_took
  case linked_nodup => exact h.linked_nodup
  case pending =>
    intro i hbefore
    rw [State.BeforeInsert, hquiet.beforeInsert] at hbefore
    rw [hquiet.current]
    exact h.pending i hbefore
  case settled =>
    intro i v hmem
    rw [State.BeforeInsert, hquiet.beforeInsert, hquiet.current]
    exact h.settled i v hmem
  case nodes =>
    intro p x hx
    rw [hquiet.version]
    exact h.nodes p x hx
  case counted => exact fun i => (hcounted i).trans (h.counted i)

theorem enter (h : Ledger took linked hist s) (hinv : Inv hist s) {i : Fin n}
    (hpc : (s.updater i).pc = .enter) :
    Ledger ((i, s.atomicCounter + 1) :: took) linked hist (firstSection s i) := by
  have hself := firstSection_updater_self hinv.tracked hpc
  have hidle : ¬ s.BeforeInsert i := by
    rw [State.BeforeInsert, hpc]
    decide
  constructor
  case took_eq =>
    change _ = (List.range' 1 (s.atomicCounter + 1)).reverse
    rw [List.map_cons, h.took_eq, List.range'_1_concat, List.reverse_concat, Nat.add_comm]
  case linked_took => exact fun entry hmem => List.mem_cons_of_mem _ (h.linked_took entry hmem)
  case linked_nodup => exact h.linked_nodup
  case pending =>
    intro j hbefore
    by_cases hj : j = i
    · subst hj
      rw [hself]
      refine ⟨List.mem_cons_self, fun hmem => ?_⟩
      have hle : s.atomicCounter + 1 ≤ s.atomicCounter := (h.mem_took (h.linked_took _ hmem)).2
      omega
    · rw [State.BeforeInsert, firstSection_updater_of_ne hj] at hbefore
      rw [firstSection_updater_of_ne hj]
      exact ⟨List.mem_cons_of_mem _ (h.pending j hbefore).1, (h.pending j hbefore).2⟩
  case settled =>
    intro j v hmem
    rcases List.mem_cons.mp hmem with heq | hmem
    · obtain ⟨rfl, rfl⟩ := Prod.mk.inj heq
      rw [State.BeforeInsert, hself]
      exact .inr ⟨rfl, rfl⟩
    · refine (h.settled j v hmem).imp_right fun hbefore => ?_
      have hj : j ≠ i := fun heq => hidle (heq ▸ hbefore.1)
      rw [State.BeforeInsert, firstSection_updater_of_ne hj]
      exact hbefore
  case nodes => exact h.nodes
  case counted =>
    intro j
    by_cases hj : j = i
    · subst hj
      have hcounted := h.counted j
      rw [hpc] at hcounted
      rw [hself]
      exact hcounted
    · rw [firstSection_updater_of_ne hj]
      exact h.counted j

theorem insert (h : Ledger took linked hist s) (hinv : Inv hist s) {i : Fin n}
    (hpc : (s.updater i).pc = .insert) :
    Ledger took ((i, (s.updater i).currentVersion) :: linked) (extend hist i s.nextAddr)
      (linkedIn s i) := by
  have hbefore : s.BeforeInsert i := by
    rw [State.BeforeInsert, hpc]
    rfl
  have hself : (linkedIn s i).updater i = { s.updater i with pc := .leave } := linkedIn_updater_self
  constructor
  case took_eq => exact h.took_eq
  case linked_took =>
    intro entry hmem
    rcases List.mem_cons.mp hmem with rfl | hmem
    · exact (h.pending i hbefore).1
    · exact h.linked_took entry hmem
  case linked_nodup => exact h.linked_nodup.cons (h.pending i hbefore).2
  case pending =>
    intro j hbefore'
    have hj : j ≠ i := by
      rintro rfl
      rw [State.BeforeInsert, hself] at hbefore'
      cases hbefore'
    rw [State.BeforeInsert, linkedIn_updater_of_ne hj] at hbefore'
    rw [linkedIn_updater_of_ne hj]
    refine ⟨(h.pending j hbefore').1, fun hmem => ?_⟩
    rcases List.mem_cons.mp hmem with heq | hmem
    · exact hj (Prod.mk.inj heq).1
    · exact (h.pending j hbefore').2 hmem
  case settled =>
    intro j v hmem
    rcases h.settled j v hmem with hlinked | ⟨hbefore', rfl⟩
    · exact .inl (List.mem_cons_of_mem _ hlinked)
    · by_cases hj : j = i
      · subst hj
        exact .inl List.mem_cons_self
      · rw [State.BeforeInsert, linkedIn_updater_of_ne hj]
        exact .inr ⟨hbefore', rfl⟩
  case nodes =>
    intro p x hx
    rcases mem_extend.mp hx with ⟨rfl, rfl⟩ | hx
    · rw [linkedIn_heap_new]
      exact .inr List.mem_cons_self
    · rw [hinv.lists.linkedIn_heap hx]
      exact (h.nodes p x hx).imp_right (List.mem_cons_of_mem _)
  case counted =>
    intro j
    have hcounted := h.counted j
    rw [List.map_cons]
    by_cases hj : j = i
    · subst hj
      rw [hpc] at hcounted
      rw [hself, List.count_cons_self, ← hcounted]
      rfl
    · rw [linkedIn_updater_of_ne hj, List.count_cons_of_ne (Ne.symm hj)]
      exact hcounted

theorem leave (h : Ledger took linked hist s) {i : Fin n} (hpc : (s.updater i).pc = .leave) :
    Ledger took linked hist (secondSection s i) := by
  have hidle : ¬ s.BeforeInsert i := by
    rw [State.BeforeInsert, hpc]
    decide
  have hbefore : ∀ j, (secondSection s i).BeforeInsert j ↔ s.BeforeInsert j := by
    intro j
    by_cases hj : j = i
    · subst hj
      refine iff_of_false ?_ hidle
      rw [State.BeforeInsert, secondSection_updater_self]
      exact Bool.false_ne_true
    · rw [State.BeforeInsert, secondSection_updater_of_ne hj]
      rfl
  constructor
  case took_eq => exact h.took_eq
  case linked_took => exact h.linked_took
  case linked_nodup => exact h.linked_nodup
  case pending =>
    intro j hj
    rw [secondSection_current]
    exact h.pending j ((hbefore j).mp hj)
  case settled =>
    intro j v hmem
    rw [secondSection_current, hbefore]
    exact h.settled j v hmem
  case nodes => exact h.nodes
  case counted =>
    intro j
    have hcounted := h.counted j
    by_cases hj : j = i
    · subst hj
      rw [hpc] at hcounted
      rw [secondSection_updater_self]
      exact hcounted
    · rw [secondSection_updater_of_ne hj]
      exact hcounted

end Ledger

theorem throughput_effect (hne : ∀ i, e ≠ .countUp i) :
    (effect s e).threadThroughput = s.threadThroughput := by
  cases e with
  | pick i p =>
    obtain ⟨u, heq⟩ := pick_frame s i p
    rw [heq]
    rfl
  | search i =>
    obtain ⟨u, heq⟩ := searchStep_frame s i
    rw [effect, heq]
    rfl
  | collect =>
    obtain ⟨link, freed, c, heq⟩ := collectStep_frame s
    rw [effect, heq]
    rfl
  | countUp i => exact absurd rfl (hne i)
  | _ => rfl

/-- A quiet event of thread `i` other than the count goes between places before the node is linked
in. -/
theorem afterInsert_effect (henabled : Enabled s e) (hquiet : e.isQuiet = true)
    (hne : ∀ i, e ≠ .countUp i) (i : Fin n) :
    ((effect s e).updater i).pc.afterInsert = (s.updater i).pc.afterInsert := by
  by_cases hself : e.thread = some i
  · have hset : ∀ (u : Updater n) pc, (s.updater i).pc = pc → u.pc.afterInsert = pc.afterInsert →
        ((s.setUpdater i u).updater i).pc.afterInsert = (s.updater i).pc.afterInsert := by
      intro u pc hpc hsame
      rw [setUpdater_updater_self, hsame, hpc]
    cases e with
    | testRun j =>
      obtain rfl := Option.some.inj hself
      refine hset _ _ henabled ?_
      by_cases hrun : s.couldThreadRun = true <;> simp [hrun, UpdaterPc.afterInsert]
    | pick j p =>
      obtain rfl := Option.some.inj hself
      simp only [effect]
      split <;> exact hset _ _ henabled.1 rfl
    | readHead j =>
      obtain rfl := Option.some.inj hself
      exact hset _ _ henabled rfl
    | readOwn j =>
      obtain rfl := Option.some.inj hself
      refine hset _ _ henabled ?_
      by_cases hactive : (s.updater j).isThreadActive = true <;>
        simp [hactive, UpdaterPc.afterInsert]
    | search j =>
      obtain rfl := Option.some.inj hself
      simp only [effect, searchStep]
      split
      · rfl
      · split <;> refine hset _ _ henabled.1 ?_
        · rfl
        · exact congrArg _ henabled.1
    | readA j x =>
      obtain rfl := Option.some.inj hself
      exact hset _ _ henabled.1 rfl
    | readAAgain j x =>
      obtain rfl := Option.some.inj hself
      exact hset _ _ henabled.1 rfl
    | countUp j => exact absurd rfl (hne j)
    | collect | setVerbosing | stopRun => cases hself
    | enter | insert | leave => cases hquiet
  · rw [updater_effect_of_ne hself]

/-- The count of an update takes the place of its being linked in and not counted. -/
theorem counted_countUp {i : Fin n} (hpc : (s.updater i).pc = .countUp) (j : Fin n) :
    (effect s (.countUp i)).threadThroughput j +
        ((effect s (.countUp i)).updater j).pc.afterInsert.toNat =
      s.threadThroughput j + (s.updater j).pc.afterInsert.toNat := by
  by_cases hj : j = i
  · subst hj
    simp [effect, hpc, UpdaterPc.afterInsert]
  · simp [effect, hj]

theorem counted_effect (henabled : Enabled s e) (hquiet : e.isQuiet = true) (j : Fin n) :
    (effect s e).threadThroughput j + ((effect s e).updater j).pc.afterInsert.toNat =
      s.threadThroughput j + (s.updater j).pc.afterInsert.toNat := by
  by_cases hcount : ∃ i, e = .countUp i
  · obtain ⟨i, rfl⟩ := hcount
    exact counted_countUp henabled j
  · have hne : ∀ i, e ≠ .countUp i := fun i heq => hcount ⟨i, heq⟩
    rw [throughput_effect hne, afterInsert_effect henabled hquiet hne]

theorem Ledger.step (h : Ledger took linked hist s) (hinv : Inv hist s) (hstep : Step s e s') :
    Ledger (taking s e ++ took) (linking s e ++ linked) (record hist s e) s' := by
  obtain ⟨henabled, rfl⟩ := hstep
  cases e with
  | enter i =>
    have htaking : taking s (.enter i) = [(i, s.atomicCounter + 1)] := by
      rw [taking, effect, firstSection_updater_self hinv.tracked henabled]
    rw [htaking]
    exact h.enter hinv henabled
  | insert i =>
    have hlinking : linking s (.insert i) = [(i, (s.updater i).currentVersion)] := by
      rw [linking, show effect s (.insert i) = linkedIn s i from rfl, linkedIn_singlyList_self,
        linkedIn_heap_new]
    rw [hlinking]
    exact h.insert hinv henabled
  | leave i => exact h.leave henabled
  | _ => exact h.quiet (quiet_of_enabled rfl henabled) (counted_effect henabled rfl)

theorem ledger_of_run {a b : Fin n → BitVec 32} {trace : List (Event n)}
    (hrun : Run Step (initial a b) trace s) :
    Ledger (takes (initial a b) trace) (links (initial a b) trace) (history trace) s := by
  induction hrun with
  | nil => exact ledger_initial a b
  | @cons trace s s' e hrun hstep ih =>
    rw [history_cons e (nextAddr_of_run hrun), takes, links, ← hrun.eq_replay]
    exact ih.step (inv_of_run hrun) hstep

/-! ### The history of versions -/

theorem Ledger.links_nodup (h : Ledger took linked hist s) : (linked.map Prod.snd).Nodup := by
  apply h.linked_nodup.map_on
  intro x hx y hy heq
  exact List.inj_on_of_nodup_map h.took_nodup (h.linked_took x hx) (h.linked_took y hy) heq

/-- When no thread holds a version any more, all that were taken are linked in. -/
theorem Ledger.perm_of_joined (h : Ledger took linked hist s) (hjoined : Joined s) :
    linked.Perm took := by
  rw [List.perm_ext_iff_of_nodup h.linked_nodup (.of_map _ h.took_nodup)]
  intro entry
  refine ⟨h.linked_took entry, fun hmem => ?_⟩
  rcases h.settled entry.1 entry.2 hmem with hlinked | ⟨hbefore, -⟩
  · exact hlinked
  · rw [State.BeforeInsert, hjoined.1] at hbefore
    cases hbefore

theorem Ledger.sum_throughput (h : Ledger took linked hist s) (hjoined : Joined s) :
    ∑ i, s.threadThroughput i = linked.length := by
  have hcount : ∀ i, s.threadThroughput i = (linked.map Prod.fst).count i := by
    intro i
    rw [← h.counted i, hjoined.1]
    rfl
  have hsum : ∑ i, (linked.map Prod.fst : Multiset (Fin n)).count i =
      (linked.map Prod.fst : Multiset (Fin n)).card :=
    Multiset.sum_count_eq_card fun _ _ => Finset.mem_univ _
  simp only [Multiset.coe_count, Multiset.coe_card, List.length_map] at hsum
  simp only [hcount, hsum]

/-- Thread `0` takes version 1 and thread `1` takes version 2; version 2 is linked in first. -/
def outOfOrder : List (Event 2) :=
  [.testRun 0, .pick 0 1, .enter 0, .testRun 1, .pick 1 0, .enter 1, .readHead 1, .readOwn 1,
    .search 1, .readA 1 5, .readAAgain 1 5, .insert 1, .leave 1, .countUp 1, .readHead 0, .readOwn 0,
    .readA 0 147, .readAAgain 0 147, .insert 0, .leave 0, .countUp 0, .stopRun, .testRun 0, .testRun 1,
    .collect]

end Multicore.Mvcc
