import Multicore.Mvcc.Quiet

/-!
# Linking a node in, cutting a list, freeing a node

The three events that write to the lists. Linking in puts the thread's version, above its whole
history, on top; the collector cuts below a node and frees nodes, in both cases only nodes older
than a `minimum` it read before.
-/

namespace Multicore.Mvcc

variable {n : ℕ} {hist : Fin n → List Addr} {s : State n} {i : Fin n}

/-! ### Linking in -/

/-- The state after thread `i` linked its node in. -/
def linkedIn (s : State n) (i : Fin n) : State n :=
  (insertSinglyList s i (s.updater i).myA (s.updater i).myB (s.updater i).currentVersion).setUpdater
    i { s.updater i with pc := .leave }

theorem linkedIn_heap_of_lt {a : Addr} (ha : a < s.nextAddr) : (linkedIn s i).heap a = s.heap a :=
  Function.update_of_ne ha.ne _ _

theorem linkedIn_heap_new : (linkedIn s i).heap s.nextAddr =
    ⟨(s.updater i).myA, (s.updater i).myB, (s.updater i).currentVersion, some (s.singlyList i)⟩ :=
  Function.update_self _ _ _

theorem linkedIn_updater_of_ne {j : Fin n} (hj : j ≠ i) : (linkedIn s i).updater j = s.updater j :=
  Function.update_of_ne hj _ _

theorem linkedIn_updater_self : (linkedIn s i).updater i = { s.updater i with pc := .leave } :=
  Function.update_self _ _ _

theorem linkedIn_singlyList_of_ne {j : Fin n} (hj : j ≠ i) :
    (linkedIn s i).singlyList j = s.singlyList j :=
  Function.update_of_ne hj _ _

theorem linkedIn_singlyList_self : (linkedIn s i).singlyList i = s.nextAddr :=
  Function.update_self _ _ _

theorem linkedIn_current (p : Fin n) :
    ((linkedIn s i).updater p).currentVersion = (s.updater p).currentVersion := by
  by_cases hp : p = i
  · subst hp
    rw [linkedIn_updater_self]
  · rw [linkedIn_updater_of_ne hp]

theorem linkedIn_inFlight (hpc : (s.updater i).pc = .insert) (p : Fin n) :
    (linkedIn s i).InFlight p ↔ s.InFlight p := by
  unfold State.InFlight
  by_cases hp : p = i
  · subst hp
    rw [linkedIn_updater_self, hpc]
    exact Iff.rfl
  · rw [linkedIn_updater_of_ne hp]

theorem registered_linkedIn (hpc : (s.updater i).pc = .insert) (r q : Fin n) (v : ℕ) :
    Registered (linkedIn s i) r q v ↔ Registered s r q v := by
  unfold Registered
  rw [linkedIn_inFlight hpc]
  by_cases hr : r = i
  · subst hr
    rw [linkedIn_updater_self]
  · rw [linkedIn_updater_of_ne hr]

/-- The histories after thread `i` linked the node at `new` in. -/
def extend (hist : Fin n → List Addr) (i : Fin n) (new : Addr) : Fin n → List Addr :=
  Function.update hist i (new :: hist i)

theorem extend_self {new : Addr} : extend hist i new i = new :: hist i := Function.update_self _ _ _

theorem extend_of_ne {new : Addr} {p : Fin n} (hp : p ≠ i) : extend hist i new p = hist p :=
  Function.update_of_ne hp _ _

theorem mem_extend {new a : Addr} {p : Fin n} :
    a ∈ extend hist i new p ↔ p = i ∧ a = new ∨ a ∈ hist p := by
  by_cases hp : p = i
  · subst hp
    rw [extend_self, List.mem_cons]
    simp
  · rw [extend_of_ne hp]
    simp [hp]

theorem consecutive_extend {new a b : Addr} {p : Fin n} :
    Consecutive (extend hist i new p) a b ↔
      p = i ∧ new = a ∧ (hist i).head? = some b ∨ Consecutive (hist p) a b := by
  by_cases hp : p = i
  · subst hp
    rw [extend_self, consecutive_cons]
    simp
  · rw [extend_of_ne hp]
    simp [hp]

theorem Lists.linkedIn_heap (h : Lists hist s) {p : Fin n} {a : Addr} (ha : a ∈ hist p) :
    (linkedIn s i).heap a = s.heap a :=
  linkedIn_heap_of_lt (h.fresh p a ha)

theorem Lists.linkedIn (h : Lists hist s) (hversions : Versions hist s)
    (hbefore : s.BeforeInsert i) : Lists (extend hist i s.nextAddr) (linkedIn s i) := by
  have hnew : ∀ p, s.nextAddr ∉ hist p := fun p hp => lt_irrefl _ (h.fresh p _ hp)
  refine ⟨fun p => ?_, fun p => ?_, fun p a ha => ?_, fun p q a hap haq => ?_, fun p a b hab => ?_,
    fun p a ha => ?_, fun p a ha hfree => ?_, fun a ha => ?_⟩
  · by_cases hp : p = i
    · subst hp
      rw [extend_self, List.head?_cons, linkedIn_singlyList_self]
    · rw [extend_of_ne hp, h.head p, linkedIn_singlyList_of_ne hp]
  · have hold : (hist p).Pairwise fun a b =>
        ((Mvcc.linkedIn s i).heap b).version < ((Mvcc.linkedIn s i).heap a).version :=
      (h.sorted p).imp_of_mem fun ha hb hab => by rwa [h.linkedIn_heap ha, h.linkedIn_heap hb]
    by_cases hp : p = i
    · subst hp
      rw [extend_self, List.pairwise_cons]
      refine ⟨fun a ha => ?_, hold⟩
      rw [h.linkedIn_heap ha, linkedIn_heap_new]
      exact hversions.pending p hbefore a ha
    · rw [extend_of_ne hp]
      exact hold
  · change a < s.nextAddr + 1
    rcases mem_extend.mp ha with ⟨_, rfl⟩ | ha
    · exact Nat.lt_succ_self _
    · exact Nat.lt_succ_of_lt (h.fresh p a ha)
  · rw [mem_extend] at hap haq
    rcases hap with ⟨rfl, rfl⟩ | hap <;> rcases haq with ⟨rfl, heq⟩ | haq
    · rfl
    · exact absurd haq (hnew q)
    · exact absurd (heq ▸ hap) (hnew p)
    · exact h.owner p q a hap haq
  · rcases consecutive_extend.mp hab with ⟨rfl, rfl, hb⟩ | hab
    · left
      rw [linkedIn_heap_new, ← hb, h.head p]
    · rw [h.linkedIn_heap hab.mem_left, h.linkedIn_heap hab.mem_right]
      exact h.link p a b hab
  · have hlast : (hist p).getLast? = some a := by
      by_cases hp : p = i
      · subst hp
        obtain ⟨first, rest, hlist⟩ := List.exists_cons_of_ne_nil (List.ne_nil_of_mem (h.head_mem p))
        rw [extend_self, hlist, List.getLast?_cons_cons, ← hlist] at ha
        exact ha
      · rwa [extend_of_ne hp] at ha
    rw [h.linkedIn_heap (List.mem_of_getLast? hlast)]
    exact h.last p a hlast
  · rcases mem_extend.mp ha with ⟨_, rfl⟩ | ha
    · exact absurd ((h.unallocated _ le_rfl).symm.trans hfree) (by decide)
    · rw [h.linkedIn_heap ha]
      exact h.freed p a ha hfree
  · exact h.unallocated a ((Nat.le_succ _).trans ha)

theorem Versions.linkedIn (h : Versions hist s) (hlists : Lists hist s)
    (hpc : (s.updater i).pc = .insert) : Versions (extend hist i s.nextAddr) (linkedIn s i) := by
  refine ⟨fun p => ?_, fun p hflight => ?_, fun p hp a ha => ?_, fun p hp => ?_⟩ <;>
    rw [linkedIn_current]
  · exact h.le_counter p
  · exact h.pos p ((linkedIn_inFlight hpc p).mp hflight)
  · have hne : p ≠ i := by
      rintro rfl
      rw [State.BeforeInsert, linkedIn_updater_self] at hp
      cases hp
    rw [State.BeforeInsert, linkedIn_updater_of_ne hne] at hp
    rw [extend_of_ne hne] at ha
    rw [hlists.linkedIn_heap ha]
    exact h.pending p hp a ha
  · by_cases hne : p = i
    · subst hne
      rw [linkedIn_singlyList_self, linkedIn_heap_new]
    · rw [State.BeforeInsert, linkedIn_updater_of_ne hne] at hp
      rw [linkedIn_singlyList_of_ne hne, hlists.linkedIn_heap (hlists.head_mem p)]
      exact h.settled p hp

theorem Taken.linkedIn (hlists : Lists hist s) {p : Fin n} {v : ℤ} (h : Taken hist s p v) :
    Taken (extend hist i s.nextAddr) (linkedIn s i) p v := by
  unfold Taken
  rw [linkedIn_current]
  refine h.imp_right fun ⟨a, ha, hv⟩ => ⟨a, mem_extend.mpr (.inr ha), ?_⟩
  rwa [hlists.linkedIn_heap ha]

theorem QueueOk.linkedIn (hlists : Lists hist s) (hpc : (s.updater i).pc = .insert) {p : Fin n}
    {entries : List ℕ} (h : QueueOk hist s p entries) :
    QueueOk (extend hist i s.nextAddr) (linkedIn s i) p entries := by
  refine h.of_queue_eq rfl (fun v hv => hv.linkedIn hlists) (fun v r hr => ?_) (fun a ha => ?_)
    (linkedIn_current p).ge
  · rw [mem_readers] at hr ⊢
    exact (registered_linkedIn hpc r p v).mp hr
  · exact ⟨mem_extend.mpr (.inr ha), by rw [hlists.linkedIn_heap ha]⟩

theorem CollectorOk.linkedIn (hlists : Lists hist s) (h : CollectorOk hist s) :
    CollectorOk (extend hist i s.nextAddr) (linkedIn s i) := by
  have hcollector : (Mvcc.linkedIn s i).collector = s.collector := rfl
  have hqueue : (Mvcc.linkedIn s i).queue = s.queue := rfl
  simp only [CollectorOk, hcollector, hqueue] at h ⊢
  cases hpc : s.collector.pc with
  | readHead j => simp only [hpc] at h ⊢; exact h
  | visit j =>
    simp only [hpc] at h ⊢
    refine ⟨h.1, fun a ha => ?_⟩
    obtain ⟨hmem, hflag, hback⟩ := h.2 a ha
    rw [hlists.linkedIn_heap hmem]
    refine ⟨mem_extend.mpr (.inr hmem), hflag, fun hfalse => ?_⟩
    have hback := hback hfalse
    cases hb : s.collector.back with
    | none => simpa only [hb] using hback
    | some b =>
      simp only [hb] at hback ⊢
      exact consecutive_extend.mpr (.inr hback)
  | cut j =>
    simp only [hpc] at h ⊢
    obtain ⟨hle, hflag, a, b, ha, hb, hab, hlt⟩ := h
    refine ⟨hle, hflag, a, b, ha, hb, consecutive_extend.mpr (.inr hab), ?_⟩
    rwa [hlists.linkedIn_heap hab.mem_right]
  | advance j =>
    simp only [hpc] at h ⊢
    obtain ⟨hle, a, ha, hmem, hlt⟩ := h
    refine ⟨hle, a, ha, mem_extend.mpr (.inr hmem), ?_⟩
    rwa [hlists.linkedIn_heap hmem]
  | free j =>
    simp only [hpc] at h ⊢
    obtain ⟨hle, hflag, ⟨b, hb, hmem, hlt⟩, htmp⟩ := h
    refine ⟨hle, hflag, ⟨b, hb, mem_extend.mpr (.inr hmem), ?_⟩, fun a ha => ?_⟩
    · rwa [hlists.linkedIn_heap hmem]
    rw [hlists.linkedIn_heap (htmp a ha).1]
    exact ⟨mem_extend.mpr (.inr (htmp a ha).1), (htmp a ha).2⟩
  | testRun => trivial
  | testVerbosing => trivial
  | readMinimum j => trivial
  | done => trivial

theorem Tracked.insert (h : Tracked s) (hpc : (s.updater i).pc = .insert) :
    Tracked (linkedIn s i) := by
  refine ⟨⟨fun j v => ?_, h.active.nodup⟩, fun j hj => ?_⟩
  · rw [linkedIn_inFlight hpc, linkedIn_current]
    exact h.active.mem_iff j v
  · rw [linkedIn_inFlight hpc] at hj
    by_cases hji : j = i
    · subst hji
      rw [linkedIn_updater_self]
      exact h.picked_ne j (.inr (by rw [State.InFlight, hpc]; rfl))
    · rw [linkedIn_updater_of_ne hji] at hj ⊢
      exact h.picked_ne j hj

theorem Inv.insert (h : Inv hist s) (hpc : (s.updater i).pc = .insert) :
    Inv (extend hist i s.nextAddr) (linkedIn s i) := by
  have hbefore : s.BeforeInsert i := by rw [State.BeforeInsert, hpc]; rfl
  have htracked := h.tracked.insert hpc
  obtain ⟨entries, hqueues⟩ := h.queues
  exact ⟨h.lists.linkedIn h.versions hbefore, h.versions.linkedIn h.lists hpc, htracked.picked_ne,
    htracked.active, ⟨entries, fun p => (hqueues p).linkedIn h.lists hpc⟩,
    h.collector.linkedIn h.lists⟩

/-! ### Cutting and freeing -/

/-- The state after the collector cut the list below `b`. -/
def cutBelow (s : State n) (b : Addr) (c : Collector n) : State n :=
  { s with heap := Function.update s.heap b { s.heap b with link := none }, collector := c }

/-- The state after the collector freed `b`. -/
def freeNode (s : State n) (b : Addr) (c : Collector n) : State n :=
  { s with freed := Function.update s.freed b true, collector := c }

theorem collectStep_cut {b : Addr} (hpc : s.collector.pc = .cut i) (hback : s.collector.back = some b) :
    collectStep s = cutBelow s b { s.collector with pc := .advance i } := by
  simp only [collectStep, hpc, hback, cutBelow]

theorem collectStep_free {b : Addr} (hpc : s.collector.pc = .free i)
    (hback : s.collector.back = some b) :
    collectStep s = freeNode s b { s.collector with pc := .visit i } := by
  simp only [collectStep, hpc, hback, freeNode]

theorem cutBelow_version {b : Addr} {c : Collector n} (a : Addr) :
    ((cutBelow s b c).heap a).version = (s.heap a).version := by
  by_cases hab : a = b
  · subst hab
    simp [cutBelow]
  · simp [cutBelow, hab]

theorem cutBelow_link {b : Addr} {c : Collector n} (a : Addr) :
    ((cutBelow s b c).heap a).link = if a = b then none else (s.heap a).link := by
  by_cases hab : a = b
  · subst hab
    simp [cutBelow]
  · simp [cutBelow, hab]

theorem Lists.cutBelow (h : Lists hist s) {a b : Addr} {c : Collector n}
    (hab : Consecutive (hist i) b a) (hlt : ((s.heap a).version : ℤ) < (s.queue i).minimum) :
    Lists hist (cutBelow s b c) := by
  have hversion := @cutBelow_version n s b c
  refine ⟨h.head, fun p => ?_, h.fresh, h.owner, fun p x y hxy => ?_, fun p x hx => ?_,
    fun p x hx => ?_, h.unallocated⟩
  · simpa only [hversion] using h.sorted p
  · rw [cutBelow_link, hversion]
    by_cases hxb : x = b
    · subst hxb
      -- the only list with `b` in it is list `i`, where the next node is `a`
      obtain rfl := h.owner p i x hxy.mem_left hab.mem_left
      obtain rfl := hxy.right_unique (h.nodup p) hab
      rw [if_pos rfl]
      exact .inr ⟨rfl, hlt⟩
    · rw [if_neg hxb]
      exact h.link p x y hxy
  · rw [cutBelow_link, hversion, (h.last p x hx).1, ite_self]
    exact ⟨rfl, (h.last p x hx).2⟩
  · rw [hversion]
    exact h.freed p x hx

theorem Lists.freeNode (h : Lists hist s) {b : Addr} {c : Collector n} (hb : b ∈ hist i)
    (hlt : ((s.heap b).version : ℤ) < (s.queue i).minimum) : Lists hist (freeNode s b c) := by
  refine ⟨h.head, h.sorted, h.fresh, h.owner, h.link, h.last, fun p x hx hfree => ?_, fun x hx => ?_⟩
  · by_cases hxb : x = b
    · subst hxb
      obtain rfl := h.owner p i x hx hb
      exact hlt
    · rw [show (Mvcc.freeNode s b c).freed x = s.freed x from Function.update_of_ne hxb _ _] at hfree
      exact h.freed p x hx hfree
  · have hxb : x ≠ b := by
      rintro rfl
      exact absurd (h.fresh i x hb) (not_lt.mpr hx)
    rw [show (Mvcc.freeNode s b c).freed x = s.freed x from Function.update_of_ne hxb _ _]
    exact h.unallocated x hx

end Multicore.Mvcc
