import Mathlib.Tactic.NormNum
import Multicore.Mvcc.Quiet

/-!
# The second critical section keeps the invariant

It takes the registration back and may move `minimum`, but only up and only to a version that is
linked in already and below what stays in the queue.
-/

namespace Multicore.Mvcc

variable {n : ℕ} {hist : Fin n → List Addr} {s : State n} {i : Fin n}

/-! ### Versions as `int` parameters -/

theorem le_of_toInt_eq {v w : ℕ} (h : toInt v = w) : w ≤ v := by
  unfold toInt at h
  have hdef := Int.bmod_def (v : ℤ) (2 ^ 32)
  rw [h] at hdef
  norm_num at hdef
  split at hdef <;> omega

theorem toInt_eq_self_of_eq {v w : ℕ} (h : toInt v = w) : toInt w = w := by
  unfold toInt at h ⊢
  have hdef := Int.bmod_def (v : ℤ) (2 ^ 32)
  rw [h] at hdef
  rw [Int.bmod_def (w : ℤ) (2 ^ 32)]
  norm_num at hdef ⊢
  split at hdef <;> split <;> omega

/-- Erasing the `int` value of a registered version erases that version itself: everything in front
of it is smaller, and keeping 32 bits of a smaller version cannot give a larger number. -/
theorem erase_map_toInt {entries : List ℕ} {v : ℕ} (hsorted : entries.Pairwise (· ≤ ·))
    (hmem : v ∈ entries) (hv : toInt v = v) :
    (entries.map toInt).erase v = (entries.erase v).map toInt := by
  induction entries with
  | nil => simp at hmem
  | cons t rest ih =>
    rw [List.pairwise_cons] at hsorted
    by_cases ht : t = v
    · subst ht
      rw [List.map_cons, hv, List.erase_cons_head, List.erase_cons_head]
    · have hrest : v ∈ rest := (List.mem_cons.mp hmem).resolve_left (Ne.symm ht)
      have hne : toInt t ≠ v := fun heq =>
        ht (le_antisymm (hsorted.1 v hrest) (le_of_toInt_eq heq))
      rw [List.map_cons, List.erase_cons_tail (by simpa using hne),
        List.erase_cons_tail (by simpa using ht), List.map_cons, ih hsorted.2 hrest]

/-- Taking a registration back, on the versions that were registered. Only a version at the front
moves `minimum`, to itself when everything left is newer, or to the previous `delete_front` when
nothing is left. -/
theorem unregister_entries {q : Queue ℤ} {entries : List ℕ} {v : ℕ} (hwell : q.WellFormed)
    (hversions : q.versions = entries.map toInt) (hsorted : entries.Pairwise (· ≤ ·))
    (hmem : v ∈ entries) :
    (q.unregister v).WellFormed ∧
      ((∃ entries', (entries' = entries ∨ entries' = entries.erase v) ∧
          (q.unregister v).versions = entries'.map toInt ∧
          (q.unregister v).minimum = q.minimum ∧ (q.unregister v).deleteFront = q.deleteFront) ∨
        ∃ entries', entries = v :: entries' ∧ (q.unregister v).versions = entries'.map toInt ∧
          (q.unregister v).deleteFront = v ∧
          ((q.unregister v).minimum = q.minimum ∨
            (q.unregister v).minimum = v ∧ (entries' ≠ [] ∧ ∀ t ∈ entries', v < t) ∨
            (q.unregister v).minimum = q.deleteFront ∧ q.deleteFront ≠ v ∧ entries' = [])) := by
  by_cases hfront : q.versions.head? = some (v : ℤ)
  · rcases entries with _ | ⟨t, rest⟩
    · simp at hmem
    rw [hversions, List.map_cons, List.head?_cons, Option.some.injEq] at hfront
    have ht : t = v := by
      refine le_antisymm ?_ (le_of_toInt_eq hfront)
      rcases List.mem_cons.mp hmem with rfl | hrest
      · exact le_rfl
      · exact (List.pairwise_cons.mp hsorted).1 v hrest
    subst ht
    obtain ⟨hwell', hversions', hdelete, hminimum⟩ :=
      hwell.unregister_front (hversions.trans (by rw [List.map_cons, hfront]))
    refine ⟨hwell', .inr ⟨rest, rfl, hversions', hdelete, ?_⟩⟩
    rw [hminimum]
    rcases rest with _ | ⟨next, rest⟩
    · by_cases hdf : q.deleteFront = t
      · exact .inl (by simp [Queue.minimumAfter, hdf])
      · exact .inr (.inr ⟨by simp [Queue.minimumAfter, hdf], hdf, rfl⟩)
    · by_cases hnext : toInt next = t
      · exact .inl (by simp [Queue.minimumAfter, hnext])
      · refine .inr (.inl ⟨by simp [Queue.minimumAfter, hnext], by simp, fun w hw => ?_⟩)
        rw [List.pairwise_cons] at hsorted
        have hlt : t < next := lt_of_le_of_ne (hsorted.1 next (by simp)) fun heq =>
          hnext (heq ▸ hfront)
        rcases List.mem_cons.mp hw with rfl | hw
        · exact hlt
        · exact lt_of_lt_of_le hlt ((List.pairwise_cons.mp hsorted.2).1 w hw)
  · obtain ⟨hwell', hversions', hdelete, hminimum⟩ := hwell.unregister_behind hfront
    rw [hversions] at hversions'
    refine ⟨hwell', .inl ?_⟩
    by_cases hv : toInt v = v
    · exact ⟨entries.erase v, .inr rfl, hversions'.trans (erase_map_toInt hsorted hmem hv),
        hminimum, hdelete⟩
    · refine ⟨entries, .inl rfl, hversions'.trans (List.erase_of_not_mem fun hin => ?_), hminimum,
        hdelete⟩
      obtain ⟨t, _, ht⟩ := List.mem_map.mp hin
      exact hv (toInt_eq_self_of_eq ht)

/-! ### The second critical section -/

theorem secondSection_updater_of_ne {j : Fin n} (hj : j ≠ i) :
    (secondSection s i).updater j = s.updater j :=
  Function.update_of_ne hj _ _

theorem secondSection_updater_self :
    (secondSection s i).updater i = { s.updater i with pc := .countUp } :=
  Function.update_self _ _ _

theorem secondSection_current (p : Fin n) :
    ((secondSection s i).updater p).currentVersion = (s.updater p).currentVersion := by
  by_cases hp : p = i
  · subst hp
    rw [secondSection_updater_self]
  · rw [secondSection_updater_of_ne hp]

theorem secondSection_inFlight (p : Fin n) :
    (secondSection s i).InFlight p ↔ p ≠ i ∧ s.InFlight p := by
  unfold State.InFlight
  by_cases hp : p = i
  · subst hp
    rw [secondSection_updater_self]
    simp [UpdaterPc.inFlight]
  · rw [secondSection_updater_of_ne hp]
    simp [hp]

theorem secondSection_taken (p : Fin n) (v : ℤ) :
    Taken hist (secondSection s i) p v ↔ Taken hist s p v := by
  unfold Taken
  rw [secondSection_current]
  rfl

theorem registered_secondSection (r q : Fin n) (v : ℕ) :
    Registered (secondSection s i) r q v ↔ r ≠ i ∧ Registered s r q v := by
  unfold Registered
  rw [secondSection_inFlight]
  by_cases hr : r = i
  · simp [hr]
  · rw [secondSection_updater_of_ne hr]
    simp [hr]

theorem Versions.secondSection (h : Versions hist s) (hpc : (s.updater i).pc = .leave) :
    Versions hist (secondSection s i) := by
  have hbefore : ∀ p, (Mvcc.secondSection s i).BeforeInsert p ↔ s.BeforeInsert p := by
    intro p
    unfold State.BeforeInsert
    by_cases hp : p = i
    · subst hp
      rw [secondSection_updater_self, hpc]
      rfl
    · rw [secondSection_updater_of_ne hp]
  refine ⟨fun p => ?_, fun p hflight => ?_, fun p hp => ?_, fun p hp => ?_⟩ <;>
    rw [secondSection_current]
  · exact h.le_counter p
  · exact h.pos p ((secondSection_inFlight p).mp hflight).2
  · exact h.pending p ((hbefore p).mp hp)
  · exact h.settled p (mt (hbefore p).mpr hp)

theorem mem_deleteGlobalActiveList {activeList : List (ActiveNode n)} {index : Fin n}
    (hnodup : (activeList.map ActiveNode.indexThread).Nodup) (node : ActiveNode n) :
    node ∈ deleteGlobalActiveList index activeList ↔ node ∈ activeList ∧ node.indexThread ≠ index := by
  induction activeList with
  | nil => simp [deleteGlobalActiveList]
  | cons first rest ih =>
    rw [List.map_cons, List.nodup_cons] at hnodup
    rw [deleteGlobalActiveList, List.mem_cons]
    by_cases hfirst : first.indexThread = index
    · rw [if_pos hfirst]
      constructor
      · intro hnode
        refine ⟨.inr hnode, fun heq => hnodup.1 ?_⟩
        rw [hfirst, ← heq]
        exact List.mem_map_of_mem hnode
      · rintro ⟨rfl | hnode, hne⟩
        · exact absurd hfirst hne
        · exact hnode
    · rw [if_neg hfirst, List.mem_cons, ih hnodup.2]
      constructor
      · rintro (rfl | ⟨hnode, hne⟩)
        · exact ⟨.inl rfl, hfirst⟩
        · exact ⟨.inr hnode, hne⟩
      · rintro ⟨rfl | hnode, hne⟩
        · exact .inl rfl
        · exact .inr ⟨hnode, hne⟩

theorem deleteGlobalActiveList_sublist (index : Fin n) (activeList : List (ActiveNode n)) :
    (deleteGlobalActiveList index activeList).Sublist activeList := by
  induction activeList with
  | nil => exact List.Sublist.refl _
  | cons first rest ih =>
    rw [deleteGlobalActiveList]
    split
    · exact List.sublist_cons_self _ _
    · exact ih.cons_cons _

theorem ActiveOk.secondSection (h : ActiveOk s) : ActiveOk (secondSection s i) := by
  refine ⟨fun j v => ?_, h.nodup.sublist ((deleteGlobalActiveList_sublist i s.activeList).map _)⟩
  change _ ∈ deleteGlobalActiveList i s.activeList ↔ _
  rw [mem_deleteGlobalActiveList h.nodup, h.mem_iff, secondSection_inFlight, secondSection_current]
  tauto

/-- Every registered version is in the queue it was registered in. -/
theorem QueueOk.mem_of_registered {p : Fin n} {entries : List ℕ} (hqueue : QueueOk hist s p entries)
    {r : Fin n} {v : ℕ} (hreg : Registered s r p v) : v ∈ entries := by
  have hpos : 0 < (readers s p v).card := Finset.card_pos.mpr ⟨r, mem_readers.mpr hreg⟩
  exact List.count_pos_iff.mp (lt_of_lt_of_le hpos (hqueue.readers_le v))

theorem readers_secondSection_subset (p : Fin n) (v : ℕ) :
    readers (secondSection s i) p v ⊆ readers s p v := fun r hr =>
  mem_readers.mpr ((registered_secondSection r p v).mp (mem_readers.mp hr)).2

/-- Taking the registration of `i` back leaves one reader less of its version. -/
theorem readers_secondSection_lt {p : Fin n} {v : ℕ} (hreg : Registered s i p v) :
    (readers (secondSection s i) p v).card < (readers s p v).card := by
  refine Finset.card_lt_card ⟨readers_secondSection_subset p v, fun hsub => ?_⟩
  have hi := mem_readers.mp (hsub (mem_readers.mpr hreg))
  exact absurd rfl ((registered_secondSection i p v).mp hi).1

/-- Without the thread that leaves, the readers of every version fit the entries without its own. -/
theorem QueueOk.readers_le_erase {p : Fin n} {v : ℕ} {entries : List ℕ}
    (hqueue : QueueOk hist s p entries) (hreg : Registered s i p v) (t : ℕ) :
    (readers (secondSection s i) p t).card ≤ (entries.erase v).count t := by
  by_cases ht : t = v
  · subst ht
    have hless := readers_secondSection_lt hreg
    have hle := hqueue.readers_le t
    rw [List.count_erase_self]
    omega
  · rw [List.count_erase_of_ne ht]
    exact (Finset.card_le_card (readers_secondSection_subset p t)).trans (hqueue.readers_le t)

/-- When the version that leaves is not at the front, `minimum` and `delete_front` stay, and at most
its own entry goes. -/
theorem QueueOk.secondSection_behind {p : Fin n} {v : ℕ} {entries entries' : List ℕ}
    (hqueue : QueueOk hist s p entries) (hreg : Registered s i p v)
    (hwell : ((secondSection s i).queue p).WellFormed)
    (hversions : ((secondSection s i).queue p).versions = entries'.map toInt)
    (hsame : entries' = entries ∨ entries' = entries.erase v)
    (hminimum : ((secondSection s i).queue p).minimum = (s.queue p).minimum)
    (hdelete : ((secondSection s i).queue p).deleteFront = (s.queue p).deleteFront) :
    QueueOk hist (secondSection s i) p entries' := by
  have hsub : entries'.Sublist entries := by
    rcases hsame with rfl | rfl
    · exact List.Sublist.refl _
    · exact List.erase_sublist
  refine ⟨hwell, hversions, hqueue.sorted.sublist hsub, fun t ht => ?_, fun t => ?_, ?_, ?_, ?_, ?_, ?_,
    ?_⟩
  · exact (secondSection_taken p t).mpr (hqueue.taken t (hsub.subset ht))
  · refine (hqueue.readers_le_erase hreg t).trans ?_
    rcases hsame with rfl | rfl
    · exact List.Sublist.count_le t List.erase_sublist
    · exact le_rfl
  · rw [hdelete]
    exact fun t ht => hqueue.deleteFront_le t (hsub.subset ht)
  · rw [hdelete, secondSection_taken]
    exact hqueue.deleteFront_taken
  · rw [hminimum]
    exact fun t ht => hqueue.minimum_lt t (hsub.subset ht)
  · rw [hminimum, hdelete]
    exact hqueue.minimum_le
  · rw [hminimum]
    exact hqueue.minimum_inserted
  · rw [hminimum, secondSection_current]
    exact hqueue.minimum_lt_current

/-- The three values `minimum` may take when the front entry leaves. Each is at least the old one,
below what stays queued, at most the version that leaves, and linked in already. -/
theorem QueueOk.minimum_after_front {p : Fin n} {v : ℕ} {entries : List ℕ} {minimum : ℤ}
    (h : Inv hist s) (hqueue : QueueOk hist s p (v :: entries))
    (hminimum : minimum = (s.queue p).minimum ∨
      minimum = v ∧ entries ≠ [] ∧ (∀ t ∈ entries, v < t) ∨
      minimum = (s.queue p).deleteFront ∧ (s.queue p).deleteFront ≠ v ∧ entries = []) :
    (s.queue p).minimum ≤ minimum ∧ (∀ t ∈ entries, minimum < t) ∧ minimum ≤ v ∧
      (∃ a ∈ hist p, ((s.heap a).version : ℤ) = minimum) ∧
      (minimum < (s.updater p).currentVersion ∨ minimum = 0) := by
  have hv : v ∈ v :: entries := List.mem_cons_self
  have hminlt := hqueue.minimum_lt v hv
  rcases hminimum with rfl | ⟨rfl, hne, hnewer⟩ | ⟨rfl, hne, rfl⟩
  · exact ⟨le_rfl, fun t ht => hqueue.minimum_lt t (List.mem_cons_of_mem _ ht), hminlt.le,
      hqueue.minimum_inserted, hqueue.minimum_lt_current⟩
  · obtain ⟨t, ht⟩ := List.exists_mem_of_ne_nil _ hne
    have htle := (hqueue.taken t (List.mem_cons_of_mem _ ht)).le_current h.lists h.versions
    have hlt : (v : ℤ) < (s.updater p).currentVersion :=
      lt_of_lt_of_le (by exact_mod_cast hnewer t ht) htle
    exact ⟨hminlt.le, fun t ht => by exact_mod_cast hnewer t ht, le_rfl,
      (hqueue.taken v hv).inserted hlt, .inl hlt⟩
  · have hdf := hqueue.deleteFront_le v hv
    have hlt : (s.queue p).deleteFront < (s.updater p).currentVersion :=
      lt_of_lt_of_le (lt_of_le_of_ne hdf hne) ((hqueue.taken v hv).le_current h.lists h.versions)
    exact ⟨hqueue.minimum_le, by simp, hdf, hqueue.deleteFront_taken.inserted hlt, .inl hlt⟩

/-- What the second critical section makes of the queue of `p`, together with `minimum` never going
down. -/
theorem QueueOk.secondSection (h : Inv hist s) (hpc : (s.updater i).pc = .leave) {p : Fin n}
    {entries : List ℕ} (hqueue : QueueOk hist s p entries) :
    (∃ entries', QueueOk hist (secondSection s i) p entries') ∧
      (s.queue p).minimum ≤ ((secondSection s i).queue p).minimum := by
  by_cases hp : (s.updater i).isThreadActive = true ∧ (s.updater i).pickedThreadIndex = p
  · obtain ⟨hactive, rfl⟩ := hp
    set p := (s.updater i).pickedThreadIndex with hpdef
    set v := (s.updater i).activeThreadVersion with hv
    have hreg : Registered s i p v := ⟨by rw [State.InFlight, hpc]; rfl, hactive, rfl, rfl⟩
    have hmem := hqueue.mem_of_registered hreg
    have hq : (Mvcc.secondSection s i).queue p = (s.queue p).unregister v := by
      simp [Mvcc.secondSection, hactive, ← hpdef, ← hv]
    obtain ⟨hwell, hcases⟩ := unregister_entries hqueue.wellFormed hqueue.versions hqueue.sorted hmem
    rw [← hq] at hwell hcases
    rcases hcases with ⟨entries', hsame, hversions, hminimum, hdelete⟩ |
        ⟨entries', rfl, hversions, hdelete, hminimum⟩
    · exact ⟨⟨entries', hqueue.secondSection_behind hreg hwell hversions hsame hminimum hdelete⟩,
        hminimum.ge⟩
    · have hsorted := List.pairwise_cons.mp hqueue.sorted
      obtain ⟨hup, hbelow, hle, hinserted, hcurrent⟩ := QueueOk.minimum_after_front h hqueue hminimum
      refine ⟨⟨entries', hwell, hversions, hsorted.2, fun t ht => ?_, fun t => ?_, ?_, ?_, hbelow, ?_,
        hinserted, ?_⟩, hup⟩
      · exact (secondSection_taken p t).mpr (hqueue.taken t (List.mem_cons_of_mem _ ht))
      · simpa using hqueue.readers_le_erase hreg t
      · rw [hdelete]
        exact fun t ht => by exact_mod_cast hsorted.1 t ht
      · rw [hdelete, secondSection_taken]
        exact hqueue.taken v hmem
      · rw [hdelete]
        exact hle
      · rw [secondSection_current]
        exact hcurrent
  · have hq : (Mvcc.secondSection s i).queue p = s.queue p := by
      by_cases hactive : (s.updater i).isThreadActive = true
      · have hne : p ≠ (s.updater i).pickedThreadIndex := fun heq => hp ⟨hactive, heq.symm⟩
        simp [Mvcc.secondSection, hactive, hne]
      · simp [Mvcc.secondSection, hactive]
    exact ⟨⟨entries, hqueue.of_queue_eq hq (fun v => (secondSection_taken p v).mpr)
      (readers_secondSection_subset p) (fun a ha => ⟨ha, rfl⟩) (secondSection_current p).ge⟩, by rw [hq]⟩

theorem Tracked.leave (h : Tracked s) : Tracked (secondSection s i) := by
  refine ⟨h.active.secondSection, fun j hj => ?_⟩
  by_cases hji : j = i
  · subst hji
    rw [secondSection_inFlight, secondSection_updater_self] at hj
    simp at hj
  · rw [secondSection_inFlight, secondSection_updater_of_ne hji] at hj
    rw [secondSection_updater_of_ne hji]
    exact h.picked_ne j (hj.imp_right And.right)

theorem Inv.leave (h : Inv hist s) (hpc : (s.updater i).pc = .leave) : Inv hist (secondSection s i) := by
  obtain ⟨entries, hqueues⟩ := h.queues
  have hminimum := fun p => ((hqueues p).secondSection h hpc).2
  have htracked := h.tracked.leave (i := i)
  choose entries' hentries' using fun p => ((hqueues p).secondSection h hpc).1
  exact ⟨h.lists.of_minimum_le rfl rfl rfl rfl hminimum, h.versions.secondSection hpc,
    htracked.picked_ne, htracked.active, ⟨entries', hentries'⟩,
    h.collector.of_minimum_le rfl rfl hminimum⟩

end Multicore.Mvcc
