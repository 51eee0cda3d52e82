import Mathlib.Tactic.Abel
import Mathlib.Data.BitVec
import Mathlib.Data.Fin.VecNotation
import Multicore.Mvcc.Readers

/-!
# The value sum is conserved

An update adds to `A` what it takes from `B`, as long as both expressions see the same value of the
picked node. So every node of a thread keeps the sum the thread started with, and the sum over the
heads, which `main` prints at the end, is the one it printed at the beginning.
-/

namespace Multicore.Mvcc

variable {n : ℕ} {hist : Fin n → List Addr} {s s' : State n} {e : Event n} {a b : Fin n → BitVec 32}
  {x : Addr}

/-- The second read of the picked node's `A` returns what the first one returned. -/
def SameRead (s : State n) : Event n → Prop
  | .readAAgain i x => x = (s.updater i).firstA
  | _ => True

instance (s : State n) : ∀ e : Event n, Decidable (SameRead s e)
  | .readAAgain i x => inferInstanceAs (Decidable (x = (s.updater i).firstA))
  | .testRun _ | .pick _ _ | .enter _ | .readHead _ | .readOwn _ | .search _ | .readA _ _ | .insert _
  | .leave _ | .countUp _ | .collect | .setVerbosing _ | .stopRun => inferInstanceAs (Decidable True)

/-! ### One step -/

/-- The values of a node are never written again. -/
theorem values_effect (hx : x < s.nextAddr) :
    ((effect s e).heap x).A = (s.heap x).A ∧ ((effect s e).heap x).B = (s.heap x).B := by
  cases e with
  | insert i =>
    rw [show (effect s (.insert i)).heap x = s.heap x from linkedIn_heap_of_lt hx]
    exact ⟨rfl, rfl⟩
  | collect =>
    obtain ⟨link, freed, c, heq⟩ := collectStep_frame s
    rw [effect, heq]
    exact ⟨rfl, rfl⟩
  | pick i p =>
    obtain ⟨u, heq⟩ := pick_frame s i p
    rw [heq]
    exact ⟨rfl, rfl⟩
  | search i =>
    obtain ⟨u, heq⟩ := searchStep_frame s i
    rw [effect, heq]
    exact ⟨rfl, rfl⟩
  | _ => exact ⟨rfl, rfl⟩

/-- What the locals of an updater with sum `total` add up to, by how far the update has come. -/
def UpdaterSum (total : BitVec 32) (u : Updater n) : Prop :=
  match u.pc with
  | .search | .readA | .insert => u.myA + u.myB = total
  | .readAAgain => u.myA + u.myB = total + u.firstA.srem 100
  | _ => True

/-- All nodes of thread `i` have the sum `a i + b i`, and so has the update under way. -/
structure Sums (a b : Fin n → BitVec 32) (hist : Fin n → List Addr) (s : State n) : Prop where
  nodes : ∀ i, ∀ x ∈ hist i, (s.heap x).A + (s.heap x).B = a i + b i
  updater : ∀ i, UpdaterSum (a i + b i) (s.updater i)

theorem Sums.nodes_step (hsums : Sums a b hist s) (h : Inv hist s) (hstep : Step s e s') (i : Fin n)
    (hx : x ∈ record hist s e i) : (s'.heap x).A + (s'.heap x).B = a i + b i := by
  obtain ⟨henabled, rfl⟩ := hstep
  rcases mem_record.mp hx with ⟨rfl, rfl⟩ | hx
  · rw [show (effect s (.insert i)).heap s.nextAddr = _ from linkedIn_heap_new]
    have hsum := hsums.updater i
    simp only [UpdaterSum, show (s.updater i).pc = _ from henabled] at hsum
    exact hsum
  · obtain ⟨hA, hB⟩ := values_effect (e := e) (h.lists.fresh i x hx)
    rw [hA, hB]
    exact hsums.nodes i x hx

theorem Sums.search (hsums : Sums a b hist s) {i : Fin n} (hpc : (s.updater i).pc = .search) :
    UpdaterSum (a i + b i) ((searchStep s i).updater i) := by
  have hsum := hsums.updater i
  simp only [UpdaterSum, hpc] at hsum
  cases hcursor : (s.updater i).cursorSinglyNode with
  | none =>
    rw [searchStep_none hcursor]
    exact hsums.updater i
  | some x =>
    by_cases hlt : (s.heap x).version < (s.updater i).activeThreadVersion
    · rw [searchStep_stop hcursor hlt, setUpdater_updater_self]
      exact hsum
    · rw [searchStep_follow hcursor hlt, setUpdater_updater_self]
      simp only [UpdaterSum, hpc]
      exact hsum

theorem updaterSum_of_not {u : Updater n} {total : BitVec 32} (hpc : ¬ u.pc.beforeInsert = true) :
    UpdaterSum total u := by
  rw [UpdaterSum]
  cases hat : u.pc <;> first | trivial | exact absurd (by rw [hat]; rfl) hpc

theorem Sums.updater_step (hsums : Sums a b hist s) (h : Inv hist s) (hstep : Step s e s')
    (hsame : SameRead s e) (i : Fin n) : UpdaterSum (a i + b i) (s'.updater i) := by
  by_cases hself : e.thread = some i
  · by_cases hbefore : s'.BeforeInsert i
    · have hsum := hsums.updater i
      rcases beforeInsert_step hstep hself hbefore with rfl | rfl | rfl | rfl | ⟨y, rfl⟩ | ⟨y, rfl⟩ <;>
        obtain ⟨henabled, rfl⟩ := hstep
      · rw [effect, firstSection_updater_self h.tracked henabled]
        trivial
      · rw [effect, setUpdater_updater_self]
        trivial
      · rw [effect, setUpdater_updater_self]
        have hown := hsums.nodes i _ (h.lists.head_mem i)
        by_cases hactive : (s.updater i).isThreadActive = true <;> simpa [UpdaterSum, hactive]
      · exact hsums.search henabled.1
      · rw [effect, setUpdater_updater_self]
        simp only [UpdaterSum, henabled.1] at hsum ⊢
        rw [← hsum]
        abel
      · rw [effect, setUpdater_updater_self]
        simp only [UpdaterSum, henabled.1] at hsum ⊢
        rw [show y = (s.updater i).firstA from hsame, ← add_sub_assoc, hsum, add_sub_cancel_right]
    · exact updaterSum_of_not hbefore
  · rw [hstep.2, updater_effect_of_ne hself]
    exact hsums.updater i

/-! ### Runs -/

theorem sums_of_run {trace : List (Event n)}
    (hrun : Run (Restrict Step SameRead) (initial a b) trace s) : Sums a b (history trace) s := by
  induction hrun with
  | nil =>
    refine ⟨fun i x hx => ?_, fun i => trivial⟩
    rw [List.mem_singleton.mp hx, initial_heap]
  | @cons trace s s' e hrun hstep ih =>
    have h := inv_of_run hrun.of_restrict
    rw [history_cons e (nextAddr_of_run hrun.of_restrict)]
    exact ⟨fun i x => ih.nodes_step h hstep.1 i, ih.updater_step h hstep.1 hstep.2⟩

/-- The collector stands behind the node it read as the head when it cuts. -/
theorem Inv.cut_behind_head (h : Inv hist s) {i : Fin n} (hpc : s.collector.pc = .cut i) :
    s.collector.back ≠ none ∧ s.collector.tmp ≠ some (s.singlyList i) := by
  have hok := h.collector
  simp only [CollectorOk, hpc] at hok
  obtain ⟨_, _, x, y, htmp, hback, hyx, _⟩ := hok
  rw [htmp, hback]
  refine ⟨Option.some_ne_none y, fun heq => ?_⟩
  exact hyx.ne_head (h.lists.nodup i) ((h.lists.head i).trans heq.symm)

/-- When both reads of the picked node's `A` agree in every update: in every state all nodes of list
`i` have the sum `a i + b i`, the head of a list is neither freed nor cut off, and the sum over the
heads is the sum `main` drew. -/
theorem sum_conserved {trace : List (Event n)}
    (hrun : Run (Restrict Step SameRead) (initial a b) trace s) :
    (∀ i x, InList s i x → (s.heap x).A + (s.heap x).B = a i + b i) ∧
      (∀ i, s.freed (s.singlyList i) = false) ∧
      (∀ i, s.collector.pc = .cut i →
        s.collector.back ≠ none ∧ s.collector.tmp ≠ some (s.singlyList i)) ∧
      afterCorrectness s = beforeCorrectness a b := by
  have h := inv_of_run hrun.of_restrict
  have hsums := sums_of_run hrun
  refine ⟨fun i x hx => hsums.nodes i x (hx.mem h.lists), h.head_not_freed, fun i => h.cut_behind_head, ?_⟩
  have hheads : ∀ i, (s.heap (s.singlyList i)).A + (s.heap (s.singlyList i)).B = a i + b i := fun i =>
    hsums.nodes i _ (h.lists.head_mem i)
  simp only [afterCorrectness, beforeCorrectness, hheads]

/-- Thread `0` makes one update from thread `1`'s node, then `main` stops the threads. -/
def oneUpdate : List (Event 2) :=
  [.testRun 0, .pick 0 1, .enter 0, .readHead 0, .readOwn 0, .readA 0 142, .readAAgain 0 142,
    .insert 0, .leave 0, .countUp 0, .stopRun, .testRun 0, .testRun 1, .collect]

theorem sum_conserved_oneUpdate :
    let s := execute effect (initial ![5, 142] ![7, 9]) oneUpdate
    Joined s ∧ (s.heap (s.singlyList 0)).A = 47 ∧
      afterCorrectness s = beforeCorrectness ![5, 142] ![7, 9] := by
  intro s
  have hrun : Run (Restrict Step SameRead) (initial ![5, 142] ![7, 9]) oneUpdate.reverse s :=
    run_execute_restrict (by decide)
  exact ⟨by decide, by decide, (sum_conserved hrun).2.2.2⟩

end Multicore.Mvcc
