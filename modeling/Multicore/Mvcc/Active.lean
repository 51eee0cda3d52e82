import Multicore.Mvcc.Mirror

/-!
# The active list

`g_active_list` is written in the critical sections only. Between them it names the threads in flight,
each once and with its version, and so does a capture of it, in the other order. What the collector,
the queues or the lists of nodes hold plays no part.
-/

namespace Multicore.Mvcc

variable {n : ℕ} {s : State n}

theorem captureActiveList_perm (activeList : List (ActiveNode n)) :
    (captureActiveList activeList).Perm activeList := by
  rw [captureActiveList_eq]
  exact activeList.reverse_perm

/-- A search in a capture taken now finds the threads in flight, with their versions. -/
theorem ActiveOk.findPicked_capture (h : ActiveOk s) (p : Fin n) :
    findPicked (captureActiveList s.activeList) p =
      if s.InFlight p then some ⟨p, (s.updater p).currentVersion⟩ else none := by
  apply findPicked_eq
  intro v
  rw [(captureActiveList_perm s.activeList).mem_iff, h.mem_iff]

/-- Outside the critical sections the active list holds one node for each thread in flight, with the
thread's version, and no other; a capture holds the same nodes. So a thread that enters knows whether
the thread it picked is in flight, and with which version. -/
theorem active_list_in_flight {minimum deleteFront : Fin n → ℤ} {a b : Fin n → BitVec 32}
    {trace : List (Event n)} (hrun : Run Step (initialWith minimum deleteFront a b) trace s) :
    (∀ node, node ∈ s.activeList ↔ s.InFlight node.indexThread ∧
        node.version = (s.updater node.indexThread).currentVersion) ∧
      (s.activeList.map ActiveNode.indexThread).Nodup ∧
      (captureActiveList s.activeList).Perm s.activeList ∧
      (∀ p, findPicked (captureActiveList s.activeList) p =
        if s.InFlight p then some ⟨p, (s.updater p).currentVersion⟩ else none) ∧
      ∀ i s', Step s (.enter i) s' →
        let u := s'.updater i
        u.captureActiveList.Perm s'.activeList ∧
          (u.isThreadActive = true ↔ s.InFlight u.pickedThreadIndex) ∧
          (u.isThreadActive = true →
            u.activeThreadVersion = (s.updater u.pickedThreadIndex).currentVersion) := by
  have htracked := tracked_of_run hrun
  refine ⟨fun node => htracked.active.mem_iff _ _, htracked.active.nodup, captureActiveList_perm _,
    htracked.active.findPicked_capture, ?_⟩
  rintro i s' ⟨henabled, rfl⟩
  rw [effect, firstSection_updater_self htracked henabled]
  refine ⟨captureActiveList_perm _, decide_eq_true_iff, fun hactive => ?_⟩
  exact if_pos (of_decide_eq_true hactive)

/-- Thread `0` is in flight, thread `2` has left again, and thread `1` is about to enter, with thread
`0` picked. -/
def aboutToEnter : List (Event 3) :=
  [.testRun 0, .pick 0 1, .testRun 2, .pick 2 0, .enter 2, .enter 0, .readHead 2, .readOwn 2, .readA 2 4,
    .readAAgain 2 4, .insert 2, .leave 2, .testRun 1, .pick 1 0]

theorem active_list_in_flight_aboutToEnter :
    let s := execute effect (initialWith (fun _ => 3) (fun _ => 1) (fun _ => 4) fun _ => 6) aboutToEnter
    s.activeList = [⟨0, 2⟩] ∧ ¬ s.InFlight 2 ∧
      findPicked (captureActiveList s.activeList) 0 = some ⟨0, 2⟩ ∧
      ((effect s (.enter 1)).updater 1).isThreadActive = true ∧
      ((effect s (.enter 1)).updater 1).activeThreadVersion = 2 := by
  intro s
  have hrun : Run Step (initialWith (fun _ => 3) (fun _ => 1) (fun _ => 4) fun _ => 6)
      aboutToEnter.reverse s := run_execute (by decide +kernel)
  have hflight : s.InFlight 0 ∧ ¬ s.InFlight 2 ∧ (s.updater 0).currentVersion = 2 := by decide +kernel
  have henter : Enabled s (.enter 1) := by decide +kernel
  have hpicked : ((effect s (.enter 1)).updater 1).pickedThreadIndex = 0 := by decide +kernel
  obtain ⟨-, -, -, hfind, hcapture⟩ := active_list_in_flight hrun
  obtain ⟨-, hactive, hversion⟩ := hcapture 1 _ ⟨henter, rfl⟩
  rw [hpicked] at hactive hversion
  have hfound := hactive.mpr hflight.1
  refine ⟨by decide +kernel, hflight.2.1, ?_, hfound, (hversion hfound).trans hflight.2.2⟩
  rw [hfind 0, if_pos hflight.1, hflight.2.2]

end Multicore.Mvcc
