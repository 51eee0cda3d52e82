import Multicore.Mvcc.Dump

/-!
# When the dump sees frozen lists

While the flag is set, a thread that is at its test goes back to it. So if all of them are at their
tests, or past the point where they touch a list, when `main` sets the flag, no list changes until
`main` clears it, and what `main` writes about a list is what the list holds.
-/

namespace Multicore.Mvcc

variable {n : ℕ} {isOpen : Fin n → Bool} {t : State n} {e : Event n} {s s' : DumpState n}
  {d : DumpEvent n} {i : Fin n}

/-- Past the test of the flag, with the new node not linked in yet. -/
def UpdaterPc.mayInsert : UpdaterPc → Bool
  | .enter | .readHead | .readOwn | .search | .readA | .readAAgain | .insert => true
  | _ => false

/-- Past the test of the flag, on its way through the lists. -/
def CollectorPc.inRound : CollectorPc n → Bool
  | .readMinimum _ | .readHead _ | .visit _ | .cut _ | .advance _ | .free _ => true
  | _ => false

/-- Nobody is going to touch a list without testing the flag first. -/
def Calm (t : State n) : Prop :=
  (∀ i, (t.updater i).pc.mayInsert = false) ∧ t.collector.pc.inRound = false

instance decidableCalm (t : State n) : Decidable (Calm t) :=
  inferInstanceAs (Decidable ((∀ _, _ = _) ∧ _ = _))

theorem Calm.setUpdater {u : Updater n} (h : Calm t) (hu : u.pc.mayInsert = false) :
    Calm (t.setUpdater i u) := by
  refine ⟨fun j => ?_, h.2⟩
  change (Function.update t.updater i u j).pc.mayInsert = false
  by_cases hji : j = i
  · subst hji
    rw [Function.update_self]
    exact hu
  · rw [Function.update_of_ne hji]
    exact h.1 j

theorem Calm.collect (h : Calm t) (hverbosing : t.isVerbosing = true) :
    Calm (collectStep t) ∧ (collectStep t).heap = t.heap ∧ (collectStep t).freed = t.freed := by
  have hround := h.2
  cases hpc : t.collector.pc with
  | testRun =>
    simp only [collectStep, hpc]
    refine ⟨⟨h.1, ?_⟩, rfl, rfl⟩
    by_cases hrun : t.couldThreadRun = true <;>
      simp [State.setCollector, hrun, CollectorPc.inRound]
  | testVerbosing =>
    simp only [collectStep, hpc, hverbosing]
    exact ⟨⟨h.1, rfl⟩, rfl, rfl⟩
  | done =>
    simp only [collectStep, hpc]
    exact ⟨h, trivial, trivial⟩
  | _ =>
    rw [hpc] at hround
    cases hround

/-- In a calm state, with the flag set, no thread links a node in and no node is cut off or freed, and
the state stays calm. -/
theorem Calm.step (h : Calm t) (hverbosing : t.isVerbosing = true) (he : e.ofThread = true)
    (henabled : Enabled t e) :
    Calm (effect t e) ∧ (∀ i, e ≠ .insert i) ∧ (effect t e).heap = t.heap ∧
      (effect t e).freed = t.freed ∧ (effect t e).singlyList = t.singlyList := by
  have hbusy : ∀ {i}, (t.updater i).pc.mayInsert ≠ true := fun {i} => by simp [h.1 i]
  have hinsert : ∀ i, e ≠ .insert i := by
    rintro i rfl
    exact hbusy (by rw [show (t.updater i).pc = _ from henabled]; rfl)
  have hcalm : e ≠ .collect → Calm (effect t e) := by
    intro hcollect
    cases e with
    | collect => exact absurd rfl hcollect
    | setVerbosing value => cases he
    | stopRun => cases he
    | testRun i =>
      refine h.setUpdater ?_
      by_cases hrun : t.couldThreadRun = true <;> simp [hrun, UpdaterPc.mayInsert]
    | pick i p =>
      simp only [effect, if_pos hverbosing]
      exact h.setUpdater rfl
    | leave i => exact h.setUpdater (u := { t.updater i with pc := .countUp }) rfl
    | countUp i =>
      exact h.setUpdater (u := { t.updater i with pc := .testRun, captureActiveList := [] }) rfl
    | enter i => exact absurd (by rw [show (t.updater i).pc = _ from henabled]; rfl) hbusy
    | readHead i => exact absurd (by rw [show (t.updater i).pc = _ from henabled]; rfl) hbusy
    | readOwn i => exact absurd (by rw [show (t.updater i).pc = _ from henabled]; rfl) hbusy
    | search i => exact absurd (by rw [show (t.updater i).pc = _ from henabled.1]; rfl) hbusy
    | readA i x => exact absurd (by rw [show (t.updater i).pc = _ from henabled.1]; rfl) hbusy
    | readAAgain i x => exact absurd (by rw [show (t.updater i).pc = _ from henabled.1]; rfl) hbusy
    | insert i => exact absurd rfl (hinsert i)
  by_cases hcollect : e = .collect
  · subst hcollect
    obtain ⟨hcalm', hheap, hfreed⟩ := h.collect hverbosing
    exact ⟨hcalm', hinsert, hheap, hfreed, singlyList_effect hinsert⟩
  · obtain ⟨hheap, hfreed, -, -⟩ := memory_effect (s := t) hinsert hcollect
    exact ⟨hcalm hcollect, hinsert, hheap, hfreed, singlyList_effect hinsert⟩

/-! ### A walk of `main` -/

/-- A walk along list `i` has passed these nodes and stands at `p`. -/
def Walked (t : State n) (i : Fin n) (p : Option Addr) (passed : List Addr) : Prop :=
  ∃ rest, Visits (fun x => (t.heap x).link) (some (t.singlyList i)) (passed ++ rest) ∧
    Visits (fun x => (t.heap x).link) p rest

section Walk

variable {p : Option Addr} {x : Addr} {passed : List Addr}

theorem Walked.next (h : Walked t i (some x) passed) :
    Walked t i (t.heap x).link (passed ++ [x]) := by
  obtain ⟨rest, hall, hrest⟩ := h
  cases rest with
  | nil => cases hrest
  | cons y rest =>
    obtain rfl : x = y := Option.some.inj hrest.1
    exact ⟨rest, by simpa using hall, hrest.2⟩

theorem Walked.visits (h : Walked t i none passed) :
    Visits (fun x => (t.heap x).link) (some (t.singlyList i)) passed := by
  obtain ⟨rest, hall, hrest⟩ := h
  cases rest with
  | nil => simpa using hall
  | cons y rest => cases hrest.1

theorem Walked.not_freed {hist : Fin n → List Addr} (h : Walked t i (some x) passed)
    (hlists : Lists hist t) (hsevered : SeveredOk hist t) : t.freed x = false := by
  obtain ⟨rest, hall, hrest⟩ := h
  cases rest with
  | nil => cases hrest
  | cons y rest =>
    obtain rfl : x = y := Option.some.inj hrest.1
    exact hsevered.not_freed hlists hall (by simp)

end Walk

/-- The list of its thread is what a report describes. -/
def Report.Describes (t : State n) (r : Report n) : Prop :=
  ∃ nodes, Visits (fun x => (t.heap x).link) (some (t.singlyList r.thread)) nodes ∧
    r.size = nodes.length * sizeofSinglyNode ∧ r.versions = nodes.map (fun x => (t.heap x).version) ∧
    some r.newest = (nodes.map fun x => (t.heap x).version).head?

/-- The size written for list `i` is that of the list. -/
def SizeOk (t : State n) (m : Main n) (i : Fin n) : Prop :=
  ∃ nodes, Visits (fun x => (t.heap x).link) (some (t.singlyList i)) nodes ∧
    m.size = nodes.length * sizeofSinglyNode

/-- How far `main` has got with the list of the current thread. -/
def DumpOk (s : DumpState n) : Prop :=
  let m := s.main
  let t := s.threads
  match m.pc with
  | .readVersion i =>
    m.tmp = some (t.singlyList i) ∧ m.tmp2 = some (t.singlyList i) ∧ m.numSinglyList = 0
  | .count i =>
    ∃ passed, Walked t i m.tmp passed ∧ m.numSinglyList = passed.length ∧
      m.tmp2 = some (t.singlyList i) ∧ m.version = (t.heap (t.singlyList i)).version
  | .print i =>
    ∃ passed, Walked t i m.tmp2 passed ∧ m.printed = passed.map (fun x => (t.heap x).version) ∧
      SizeOk t m i ∧ m.version = (t.heap (t.singlyList i)).version
  | .follow i =>
    ∃ passed x, m.tmp2 = some x ∧ Walked t i (some x) passed ∧
      m.printed = (passed ++ [x]).map (fun x => (t.heap x).version) ∧
      SizeOk t m i ∧ m.version = (t.heap (t.singlyList i)).version
  | _ => True

/-- What holds while the flag is set. -/
structure Window (s : DumpState n) : Prop where
  calm : Calm s.threads
  dump : DumpOk s
  reports : ∀ r ∈ s.main.reports, r.Describes s.threads

theorem Window.congr {t : State n} (h : Window s) (hcalm : Calm t) (hheap : t.heap = s.threads.heap)
    (hlist : t.singlyList = s.threads.singlyList) : Window { s with threads := t } := by
  refine ⟨hcalm, ?_, fun r hr => ?_⟩
  · simpa only [DumpOk, Walked, SizeOk, hheap, hlist] using h.dump
  · simpa only [Report.Describes, hheap, hlist] using h.reports r hr

theorem dumpOk_at {m : Main n} {k : ℕ} (hpc : m.pc = .at k) : DumpOk { s with main := m } := by
  rcases MainPc.at_cases (n := n) k with ⟨i, hi⟩ | hi <;> simp [DumpOk, hpc, hi]

theorem Window.mainStep {hist : Fin n → List Addr} (h : Window s) (hlists : Lists hist s.threads)
    (hsleep : s.main.pc ≠ .sleep) (hclear : s.main.pc ≠ .clear) : Window (mainStep isOpen s) := by
  have hdump := h.dump
  simp only [DumpOk] at hdump
  cases hpc : s.main.pc with
  | sleep => exact absurd hpc hsleep
  | clear => exact absurd hpc hclear
  | testFile i =>
    simp only [Mvcc.mainStep, hpc]
    refine ⟨h.calm, ?_, h.reports⟩
    cases isOpen i with
    | true => trivial
    | false => exact dumpOk_at (k := i.val + 1) rfl
  | readHead i =>
    simp only [Mvcc.mainStep, hpc]
    exact ⟨h.calm, ⟨rfl, rfl, rfl⟩, h.reports⟩
  | readVersion i =>
    simp only [hpc] at hdump
    obtain ⟨htmp, htmp2, hnum⟩ := hdump
    simp only [Mvcc.mainStep, hpc, htmp]
    obtain ⟨nodes, rest, -, hvisits, -⟩ := hlists.exists_visits i
    exact ⟨h.calm, ⟨[], ⟨nodes, hvisits, htmp ▸ hvisits⟩, hnum, htmp2, rfl⟩, h.reports⟩
  | count i =>
    simp only [hpc] at hdump
    obtain ⟨passed, hwalked, hnum, htmp2, hversion⟩ := hdump
    cases htmp : s.main.tmp with
    | none =>
      simp only [Mvcc.mainStep, hpc, htmp]
      rw [htmp] at hwalked
      have hvisits := hwalked.visits
      exact ⟨h.calm, ⟨[], ⟨passed, hvisits, htmp2 ▸ hvisits⟩, rfl,
        ⟨passed, hvisits, congrArg (· * sizeofSinglyNode) hnum⟩, hversion⟩, h.reports⟩
    | some x =>
      simp only [Mvcc.mainStep, hpc, htmp]
      rw [htmp] at hwalked
      exact ⟨h.calm, ⟨passed ++ [x], hwalked.next, by simp [hnum], htmp2, hversion⟩, h.reports⟩
  | print i =>
    simp only [hpc] at hdump
    obtain ⟨passed, hwalked, hprinted, hsize, hversion⟩ := hdump
    cases htmp2 : s.main.tmp2 with
    | none =>
      simp only [Mvcc.mainStep, hpc, htmp2]
      rw [htmp2] at hwalked
      refine ⟨h.calm, dumpOk_at (k := i.val + 1) rfl, fun r hr => ?_⟩
      rcases List.mem_append.mp hr with hr | hr
      · exact h.reports r hr
      -- both walks went along the same nodes, and the first of them is the head
      · obtain rfl := List.mem_singleton.mp hr
        obtain ⟨nodes, hnodes, hsize⟩ := hsize
        obtain rfl := hnodes.unique hwalked.visits
        refine ⟨nodes, hnodes, hsize, hprinted, ?_⟩
        rw [List.head?_map, ← (visits_iff.mp hnodes).1]
        exact congrArg some hversion
    | some x =>
      simp only [Mvcc.mainStep, hpc, htmp2]
      rw [htmp2] at hwalked
      exact ⟨h.calm, ⟨passed, x, rfl, hwalked, by simp [hprinted], hsize, hversion⟩, h.reports⟩
  | follow i =>
    simp only [hpc] at hdump
    obtain ⟨passed, x, htmp2, hwalked, hprinted, hsize, hversion⟩ := hdump
    simp only [Mvcc.mainStep, hpc, htmp2]
    exact ⟨h.calm, ⟨passed ++ [x], hwalked.next, hprinted, hsize, hversion⟩, h.reports⟩

/-- `main` sets the flag in a calm state. -/
def StartsCalm (s : DumpState n) (d : DumpEvent n) : Prop :=
  d = .main → s.main.pc = .sleep → Calm s.threads

instance decidableStartsCalm (s : DumpState n) (d : DumpEvent n) : Decidable (StartsCalm s d) :=
  inferInstanceAs (Decidable (d = .main → s.main.pc = .sleep → Calm s.threads))

theorem window_of_run {a b : Fin n → BitVec 32} {trace : List (DumpEvent n)}
    (hrun : Run (Restrict (DumpStep isOpen) StartsCalm) (dumpInitial a b) trace s) :
    s.main.pc ≠ .sleep → Window s := by
  refine hrun.invariant (P := fun _ s => s.main.pc ≠ .sleep → Window s) (fun hpc => absurd rfl hpc) ?_
  rintro trace s d s' hrun hwindow ⟨⟨henabled, rfl⟩, hcalm⟩ hpc
  have hflag := flagOk_of_run hrun.of_restrict
  obtain ⟨trace', hthreads⟩ := threads_of_run hrun.of_restrict
  have hlists := (inv_of_run hthreads).lists
  cases d with
  | thread e =>
    have hwindow := hwindow hpc
    obtain ⟨hcalm', -, hheap, -, hlist⟩ :=
      hwindow.calm.step (hflag.verbosing.mpr hpc) henabled.1 henabled.2
    exact hwindow.congr hcalm' hheap hlist
  | stop => exact absurd henabled.1 hpc
  | main =>
    by_cases hsleep : s.main.pc = .sleep
    · simp only [dumpEffect, mainStep, hsleep]
      exact ⟨hcalm rfl hsleep, dumpOk_at (k := 0) rfl, fun r hr => absurd hr List.not_mem_nil⟩
    by_cases hclear : s.main.pc = .clear
    · simp [dumpEffect, mainStep, hclear] at hpc
    · exact (hwindow hsleep).mainStep hlists hsleep hclear

theorem Window.dereferenced_not_freed {hist : Fin n → List Addr} (h : Window s)
    (hlists : Lists hist s.threads) (hsevered : SeveredOk hist s.threads) {x : Addr}
    (hx : s.main.dereferenced = some x) : s.threads.freed x = false := by
  have hdump := h.dump
  simp only [DumpOk, Main.dereferenced] at hdump hx
  cases hpc : s.main.pc with
  | readVersion i =>
    simp only [hpc] at hdump hx
    obtain rfl := Option.some.inj (hdump.1.symm.trans hx)
    obtain ⟨nodes, rest, -, hvisits, -⟩ := hlists.exists_visits i
    refine hsevered.not_freed hlists hvisits (List.mem_of_mem_head? ?_)
    exact (visits_iff.mp hvisits).1.symm
  | count i =>
    simp only [hpc] at hdump hx
    obtain ⟨passed, hwalked, -⟩ := hdump
    exact (hx ▸ hwalked).not_freed hlists hsevered
  | print i =>
    simp only [hpc] at hdump hx
    obtain ⟨passed, hwalked, -⟩ := hdump
    exact (hx ▸ hwalked).not_freed hlists hsevered
  | follow i =>
    simp only [hpc] at hdump hx
    obtain ⟨passed, y, hy, hwalked, -⟩ := hdump
    obtain rfl := Option.some.inj (hy.symm.trans hx)
    exact hwalked.not_freed hlists hsevered
  | _ =>
    rw [hpc] at hx
    cases hx

/-- One round of reading, and `main` dumps the list of thread `0`. -/
def calmDump : List (DumpEvent 2) :=
  (readRound 5).map .thread ++ List.replicate 12 .main

/-- The collector is about to cut list `0`, and thread `1` has its new node ready. -/
def aboutToCut : List (Event 2) :=
  beforePass ++ List.replicate 7 .collect ++
    [.testRun 1, .pick 1 0, .enter 1, .readHead 1, .readOwn 1, .readA 1 20, .readAAgain 1 20]

/-- There `main` sets the flag, and the collector frees the node `main` has just walked to. -/
def dumpDuringRound : List (DumpEvent 2) :=
  aboutToCut.map .thread ++ List.replicate 6 .main ++ List.replicate 3 (.thread .collect)

/-- Thread `1` inserts, and `main` finishes with list `0`. -/
def dumpOfCutList : List (DumpEvent 2) := .thread (.insert 1) :: List.replicate 7 .main

end Multicore.Mvcc
