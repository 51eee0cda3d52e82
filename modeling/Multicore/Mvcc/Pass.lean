import Multicore.Mvcc.Views

/-!
# One pass of the collector over a list

A pass works from the `minimum` it read at its start. It never gets to cut in front of the head, since
`minimum` is the version of a node of the list, and what it leaves are the nodes from that version on.
-/

namespace Multicore.Mvcc

variable {n : ℕ} {hist : Fin n → List Addr} {s s' : State n} {i : Fin n} {m : ℤ}

/-- `minimum` never decreases. -/
theorem Inv.minimum_le_step (h : Inv hist s) {e : Event n} (hstep : Step s e s') (p : Fin n) :
    (s.queue p).minimum ≤ (s'.queue p).minimum := by
  obtain ⟨henabled, rfl⟩ := hstep
  cases hquiet : e.isQuiet with
  | true => rw [(quiet_of_enabled hquiet henabled).queue]
  | false =>
    cases e with
    | enter i => exact (firstSection_minimum p).1.ge
    | insert i => exact le_rfl
    | leave i =>
      obtain ⟨entries, hqueues⟩ := h.queues
      exact ((hqueues p).secondSection h henabled).2
    | _ => cases hquiet

/-- A node below the minimum of its list is the head of none. -/
theorem Inv.ne_head_of_lt (h : Inv hist s) {a : Addr} (ha : a ∈ hist i)
    (hlt : ((s.heap a).version : ℤ) < (s.queue i).minimum) (p : Fin n) : a ≠ s.singlyList p := by
  rintro rfl
  obtain rfl := h.lists.owner p i _ (h.lists.head_mem p) ha
  exact absurd (h.minimum_le_head p) (not_le.mpr hlt)

/-! ### The list between its head and the first cut -/

theorem Lists.exists_visits (h : Lists hist s) (p : Fin n) :
    ∃ front rest, hist p = front ++ rest ∧
      Visits (fun a => (s.heap a).link) (some (s.singlyList p)) front ∧
      ∀ b, rest.head? = some b → ∃ a, Consecutive (hist p) a b ∧ (s.heap a).link = none := by
  rw [← h.head p]
  refine Multicore.exists_visits (fun a b hab => ?_) fun a ha => (h.last p a ha).1
  exact (h.link p a b hab).imp_right And.left

/-- The nodes behind one that is below a threshold are below it too. -/
theorem Lists.lt_of_head (h : Lists hist s) {front rest : List Addr} (hsplit : hist i = front ++ rest)
    (hhead : ∀ b, rest.head? = some b → ((s.heap b).version : ℤ) < m) :
    ∀ b ∈ rest, ((s.heap b).version : ℤ) < m := by
  intro b hb
  rcases rest with _ | ⟨first, rest⟩
  · cases hb
  · have hsorted := (List.pairwise_append.mp (hsplit ▸ h.sorted i)).2.1
    rcases List.mem_cons.mp hb with rfl | hb
    · exact hhead b rfl
    · have hlower := List.rel_of_pairwise_cons hsorted hb
      exact lt_trans (by exact_mod_cast hlower) (hhead first rfl)

/-! ### What holds during a pass -/

/-- The collector is at work on list `i`, with the threshold read. -/
def CollectorPc.onList (i : Fin n) : CollectorPc n → Bool
  | .readHead j | .visit j | .cut j | .advance j | .free j => decide (j = i)
  | _ => false

theorem CollectorPc.onList_iff {pc : CollectorPc n} :
    pc.onList i = true ↔
      pc = .readHead i ∨ pc = .visit i ∨ pc = .cut i ∨ pc = .advance i ∨ pc = .free i := by
  cases pc <;> simp [CollectorPc.onList]

/-- What the collector has at hand is a node of the list. -/
theorem CollectorOk.tmp_mem {a : Addr} (h : CollectorOk hist s)
    (hpc : s.collector.pc = .visit i ∨ s.collector.pc = .cut i ∨ s.collector.pc = .advance i ∨
      s.collector.pc = .free i) (htmp : s.collector.tmp = some a) : a ∈ hist i := by
  rcases hpc with hpc | hpc | hpc | hpc <;> simp only [CollectorOk, hpc] at h
  · exact (h.2 a htmp).1
  · obtain ⟨-, -, a', b, htmp', -, hab, -⟩ := h
    exact Option.some.inj (htmp'.symm.trans htmp) ▸ hab.mem_right
  · obtain ⟨-, a', htmp', hmem, -⟩ := h
    exact Option.some.inj (htmp'.symm.trans htmp) ▸ hmem
  · exact (h.2.2.2 a htmp).1

/-- Some node from the threshold on is the last one linked. -/
def CutAt (l : List Addr) (m : ℤ) (s : State n) : Prop :=
  ∃ b ∈ l, m ≤ (s.heap b).version ∧ (s.heap b).link = none

/-- Where the collector stands: in front of the cut it has only passed nodes from the threshold on,
and the node it goes to is the one the node behind it links to. -/
def WalkOk (l : List Addr) (m : ℤ) (s : State n) : Prop :=
  let c := s.collector
  match c.pc with
  | .visit _ =>
    (c.deleteFlag = true → CutAt l m s) ∧
      (c.deleteFlag = false → match c.back with
        | none => c.tmp ≠ none
        | some b => b ∈ l ∧ m ≤ (s.heap b).version ∧ (s.heap b).link = c.tmp)
  | .cut _ => ∃ b, c.back = some b ∧ m ≤ (s.heap b).version
  | .advance _ =>
    (c.deleteFlag = true → CutAt l m s) ∧
      (c.deleteFlag = false → ∃ a, c.tmp = some a ∧ m ≤ (s.heap a).version)
  | .free _ => CutAt l m s
  | _ => True

structure PassOk (hist : Fin n → List Addr) (i : Fin n) (m : ℤ) (s : State n) : Prop where
  threshold : s.collector.minimum = m
  kept : ∀ a b, Consecutive (hist i) a b → m ≤ (s.heap b).version → (s.heap a).link = some b
  walk : WalkOk (hist i) m s

/-- When the collector is through with the list, the nodes from the threshold on are what the list
holds. -/
theorem PassOk.visits (h : PassOk hist i m s) (hlists : Lists hist s)
    (hpc : s.collector.pc = .visit i) (htmp : s.collector.tmp = none) :
    Visits (fun a => (s.heap a).link) (some (s.singlyList i))
      ((hist i).filter fun a => decide (m ≤ (s.heap a).version)) := by
  obtain ⟨b, hb, hle, hnone⟩ : CutAt (hist i) m s := by
    have hwalk := h.walk
    simp only [WalkOk, hpc, htmp] at hwalk
    cases hflag : s.collector.deleteFlag with
    | true => exact hwalk.1 hflag
    | false =>
      have hwalk := hwalk.2 hflag
      cases hback : s.collector.back with
      | none => simp [hback] at hwalk
      | some b =>
        simp only [hback] at hwalk
        exact ⟨b, hwalk⟩
  obtain ⟨front, rest, hsplit, hvisits, hstop⟩ := hlists.exists_visits i
  have hrest : ∀ x ∈ rest, ((s.heap x).version : ℤ) < m := by
    refine hlists.lt_of_head hsplit fun x hx => ?_
    obtain ⟨a, hax, ha⟩ := hstop x hx
    by_contra hlt
    rw [h.kept a x hax (not_lt.mp hlt)] at ha
    cases ha
  -- the node that ends the list is from the threshold on, and all nodes in front of it are newer
  have hfront : ∀ x ∈ front, m ≤ (s.heap x).version := by
    have hbfront : b ∈ front := by
      rw [hsplit] at hb
      rcases List.mem_append.mp hb with hb | hb
      · exact hb
      · exact absurd hle (not_le.mpr (hrest b hb))
    have hlast : front.getLast? = some b := by
      have hfollowed : FollowedBy front b (s.heap b).link := hvisits.followedBy hbfront
      rw [hnone] at hfollowed
      exact hfollowed
    obtain ⟨before, rfl⟩ := List.getLast?_eq_some_iff.mp hlast
    intro x hx
    rcases List.mem_append.mp hx with hx | hx
    · have hsorted := (List.pairwise_append.mp (hsplit ▸ hlists.sorted i)).1
      have hlower := (List.pairwise_append.mp hsorted).2.2 x hx b (List.mem_singleton_self b)
      exact hle.trans (by exact_mod_cast hlower.le)
    · rwa [List.mem_singleton.mp hx]
  rw [hsplit, List.filter_append, List.filter_eq_self.mpr (by simpa using hfront),
    List.filter_eq_nil_iff.mpr (by simpa using hrest), List.append_nil]
  exact hvisits

/-! ### A pass keeps it -/

theorem PassOk.congr (h : PassOk hist i m s) (hheap : s'.heap = s.heap)
    (hcollector : s'.collector = s.collector) : PassOk hist i m s' := by
  obtain ⟨hthreshold, hkept, hwalk⟩ := h
  refine ⟨hcollector ▸ hthreshold, hheap ▸ hkept, ?_⟩
  simpa only [WalkOk, CutAt, hheap, hcollector] using hwalk

theorem CutAt.linkedIn {j : Fin n} (h : CutAt (hist i) m s) (hlists : Lists hist s) :
    CutAt (extend hist j s.nextAddr i) m (linkedIn s j) := by
  obtain ⟨b, hb, hle, hnone⟩ := h
  refine ⟨b, mem_extend.mpr (.inr hb), ?_⟩
  rw [hlists.linkedIn_heap hb]
  exact ⟨hle, hnone⟩

/-- A node that is linked in meanwhile links to the head it found. -/
theorem PassOk.linkedIn {j : Fin n} (h : PassOk hist i m s) (hinv : Inv hist s)
    (hon : s.collector.pc.onList i = true) :
    PassOk (extend hist j s.nextAddr) i m (linkedIn s j) := by
  have hlists := hinv.lists
  have hcollector : (Mvcc.linkedIn s j).collector = s.collector := rfl
  refine ⟨h.threshold, fun a b hab hle => ?_, ?_⟩
  · rcases consecutive_extend.mp hab with ⟨rfl, rfl, hhead⟩ | hab
    · rw [linkedIn_heap_new, ← hhead, hlists.head]
    · rw [hlists.linkedIn_heap hab.mem_right] at hle
      rw [hlists.linkedIn_heap hab.mem_left]
      exact h.kept a b hab hle
  · have hwalk := h.walk
    have hok := hinv.collector
    simp only [WalkOk, CollectorOk, hcollector] at hwalk hok ⊢
    rcases CollectorPc.onList_iff.mp hon with hpc | hpc | hpc | hpc | hpc <;>
      simp only [hpc] at hwalk hok ⊢
    · refine ⟨fun hflag => (hwalk.1 hflag).linkedIn hlists, fun hflag => ?_⟩
      have hwalk := hwalk.2 hflag
      cases hback : s.collector.back with
      | none => simpa only [hback] using hwalk
      | some b =>
        simp only [hback] at hwalk ⊢
        rw [hlists.linkedIn_heap hwalk.1]
        exact ⟨mem_extend.mpr (.inr hwalk.1), hwalk.2⟩
    · obtain ⟨b, hback, hle⟩ := hwalk
      obtain ⟨-, -, a, b', -, hback', hab, -⟩ := hok
      obtain rfl : b = b' := Option.some.inj (hback.symm.trans hback')
      exact ⟨b, hback, by rwa [hlists.linkedIn_heap hab.mem_left]⟩
    · refine ⟨fun hflag => (hwalk.1 hflag).linkedIn hlists, fun hflag => ?_⟩
      obtain ⟨a, htmp, hle⟩ := hwalk.2 hflag
      have hmem := hinv.collector.tmp_mem (.inr (.inr (.inl hpc))) htmp
      exact ⟨a, htmp, by rwa [hlists.linkedIn_heap hmem]⟩
    · exact hwalk.linkedIn hlists

/-- Cutting below the last node from the threshold on takes away links to older nodes only. -/
theorem PassOk.cutBelow {a b : Addr} {c : Collector n} (h : PassOk hist i m s) (hlists : Lists hist s)
    (hba : Consecutive (hist i) b a) (hlt : ((s.heap a).version : ℤ) < m)
    (hle : m ≤ (s.heap b).version) (hc : c = { s.collector with pc := .advance i })
    (hflag : s.collector.deleteFlag = true) : PassOk hist i m (cutBelow s b c) := by
  refine ⟨hc ▸ h.threshold, fun x y hxy hy => ?_, ?_⟩
  · rw [cutBelow_version] at hy
    have hxb : x ≠ b := by
      rintro rfl
      rw [hba.right_unique (hlists.nodup i) hxy] at hlt
      exact absurd hy (not_le.mpr hlt)
    rw [cutBelow_link, if_neg hxb]
    exact h.kept x y hxy hy
  · have hcut : CutAt (hist i) m (Mvcc.cutBelow s b c) := by
      refine ⟨b, hba.mem_left, ?_⟩
      rw [cutBelow_version, cutBelow_link, if_pos rfl]
      exact ⟨hle, rfl⟩
    have hcollector : (Mvcc.cutBelow s b c).collector = { s.collector with pc := .advance i } := hc
    simp only [WalkOk, hcollector]
    exact ⟨fun _ => hcut, fun hfalse => absurd (hflag.symm.trans hfalse) Bool.noConfusion⟩

theorem PassOk.setCollector {c : Collector n} (h : PassOk hist i m s)
    (hminimum : c.minimum = s.collector.minimum)
    (hwalk : WalkOk (hist i) m (s.setCollector c)) : PassOk hist i m (s.setCollector c) :=
  ⟨hminimum.trans h.threshold, h.kept, hwalk⟩

theorem PassOk.collect (h : PassOk hist i m s) (hinv : Inv hist s)
    (hon : s.collector.pc.onList i = true) : PassOk hist i m (collectStep s) := by
  have hwalk := h.walk
  have hok := hinv.collector
  simp only [WalkOk, CollectorOk] at hwalk hok
  rcases CollectorPc.onList_iff.mp hon with hpc | hpc | hpc | hpc | hpc <;> simp only [hpc] at hwalk hok
  · simp only [collectStep, hpc]
    refine h.setCollector rfl ⟨fun hflag => absurd hflag Bool.false_ne_true, fun _ => ?_⟩
    simp [State.setCollector, hok.1]
  · simp only [collectStep, hpc]
    cases htmp : s.collector.tmp with
    | none =>
      refine h.setCollector rfl ?_
      rcases nextList_cases i with hnext | ⟨k, hnext⟩ <;> simp [WalkOk, State.setCollector, hnext]
    | some a =>
      by_cases hcut : s.collector.deleteFlag = false ∧ ((s.heap a).version : ℤ) < s.collector.minimum
      · simp only [if_pos hcut]
        refine h.setCollector rfl ?_
        have hwalk := hwalk.2 hcut.1
        have hok := (hok.2 a htmp).2.2 hcut.1
        cases hback : s.collector.back with
        | none =>
          simp only [hback] at hok
          exact absurd hok (not_le.mpr hcut.2)
        | some b =>
          simp only [hback] at hwalk
          exact ⟨b, rfl, hwalk.2.1⟩
      · simp only [if_neg hcut]
        refine h.setCollector rfl ⟨hwalk.1, fun hflag => ⟨a, rfl, ?_⟩⟩
        rw [← h.threshold]
        exact not_lt.mp fun hlt => hcut ⟨hflag, hlt⟩
  · obtain ⟨-, hflag, a, b, htmp, hback, hba, hlt⟩ := hok
    obtain ⟨b', hback', hle⟩ := hwalk
    obtain rfl : b = b' := Option.some.inj (hback.symm.trans hback')
    rw [collectStep_cut hpc hback]
    exact h.cutBelow hinv.lists hba (h.threshold ▸ hlt) hle rfl hflag
  · obtain ⟨-, a, htmp, hmem, -⟩ := hok
    simp only [collectStep, hpc, htmp]
    refine h.setCollector rfl ?_
    cases hflag : s.collector.deleteFlag with
    | true => exact hwalk.1 hflag
    | false =>
      obtain ⟨a', htmp', hle⟩ := hwalk.2 hflag
      obtain rfl : a = a' := Option.some.inj (htmp.symm.trans htmp')
      exact ⟨fun htrue => absurd htrue Bool.false_ne_true, fun _ => ⟨hmem, hle, rfl⟩⟩
  · obtain ⟨-, hflag, ⟨b, hback, -, -⟩, -⟩ := hok
    rw [collectStep_free hpc hback]
    refine ⟨h.threshold, h.kept, fun _ => hwalk, fun hfalse => ?_⟩
    exact absurd (hflag.symm.trans hfalse) Bool.noConfusion

/-! ### A pass ends -/

/-- How many nodes are at most as new as the one a pointer points to. -/
def nodesFrom (l : List Addr) (s : State n) : Option Addr → ℕ
  | none => 0
  | some a => (l.filter fun x => decide ((s.heap x).version ≤ (s.heap a).version)).length

/-- A bound on the actions the collector still takes on a list: each node costs up to four, to visit
it, cut in front of it, leave it and free it. -/
def passWork (l : List Addr) (s : State n) : ℕ :=
  let c := s.collector
  match c.pc with
  | .readHead _ => 4 * l.length + 4
  | .visit _ => 4 * nodesFrom l s c.tmp + 3
  | .cut _ => 4 * nodesFrom l s c.tmp + 2
  | .advance _ => 4 * nodesFrom l s c.tmp + 1
  | .free _ => 4 * nodesFrom l s c.tmp + 4
  | _ => 0

theorem nodesFrom_le (l : List Addr) (s : State n) (p : Option Addr) : nodesFrom l s p ≤ l.length := by
  cases p with
  | none => exact Nat.zero_le _
  | some a => exact List.length_filter_le _ _

theorem Lists.nodesFrom_link_lt (h : Lists hist s) {a : Addr} (ha : a ∈ hist i) :
    nodesFrom (hist i) s (s.heap a).link < nodesFrom (hist i) s (some a) := by
  have hself : a ∈ (hist i).filter fun x => decide ((s.heap x).version ≤ (s.heap a).version) := by
    simp [ha]
  cases hlink : (s.heap a).link with
  | none => exact List.length_pos_of_mem hself
  | some b =>
    have hlower : (s.heap b).version < (s.heap a).version :=
      (h.consecutive_of_link ha hlink).rel (h.sorted i)
    have hsub : ((hist i).filter fun x => decide ((s.heap x).version ≤ (s.heap b).version)).Sublist
        ((hist i).filter fun x => decide ((s.heap x).version ≤ (s.heap a).version)) :=
      List.monotone_filter_right _ fun x hx => by
        rw [decide_eq_true_eq] at hx ⊢
        exact hx.trans hlower.le
    refine lt_of_le_of_ne hsub.length_le fun heq => ?_
    rw [← hsub.eq_of_length heq, List.mem_filter, decide_eq_true_eq] at hself
    exact absurd hself.2 (not_le.mpr hlower)

theorem Inv.passWork_collect (h : Inv hist s) (hon : s.collector.pc.onList i = true) :
    passWork (hist i) (collectStep s) < passWork (hist i) s := by
  have hok := h.collector
  simp only [CollectorOk] at hok
  rcases CollectorPc.onList_iff.mp hon with hpc | hpc | hpc | hpc | hpc <;> simp only [hpc] at hok
  · simp only [collectStep, passWork, hpc, State.setCollector]
    have := nodesFrom_le (hist i) s (some (s.singlyList i))
    exact Nat.lt_succ_of_le (Nat.add_le_add_right (Nat.mul_le_mul_left 4 this) 3)
  · simp only [collectStep, hpc]
    cases htmp : s.collector.tmp with
    | none =>
      rcases nextList_cases i with hnext | ⟨k, hnext⟩ <;>
        simp [passWork, State.setCollector, hnext, hpc]
    | some a =>
      by_cases hcut : s.collector.deleteFlag = false ∧ ((s.heap a).version : ℤ) < s.collector.minimum
      · simp only [if_pos hcut, passWork, State.setCollector, hpc, htmp]
        exact Nat.lt_succ_self _
      · simp only [if_neg hcut, passWork, State.setCollector, hpc, htmp]
        exact Nat.add_lt_add_left (by decide) _
  · obtain ⟨-, -, a, b, htmp, hback, -, -⟩ := hok
    have hsame : nodesFrom (hist i) (cutBelow s b { s.collector with pc := .advance i }) (some a) =
        nodesFrom (hist i) s (some a) := by
      simp only [nodesFrom, cutBelow_version]
    have hafter : passWork (hist i) (collectStep s) =
        4 * nodesFrom (hist i) (cutBelow s b { s.collector with pc := .advance i }) (some a) + 1 := by
      rw [collectStep_cut hpc hback, ← htmp]
      rfl
    have hbefore : passWork (hist i) s = 4 * nodesFrom (hist i) s (some a) + 2 := by
      simp only [passWork, hpc, htmp]
    omega
  · obtain ⟨-, a, htmp, hmem, -⟩ := hok
    have hlt := h.lists.nodesFrom_link_lt hmem
    have hbefore : passWork (hist i) s = 4 * nodesFrom (hist i) s (some a) + 1 := by
      simp only [passWork, hpc, htmp]
    have hafter : passWork (hist i) (collectStep s) ≤ 4 * nodesFrom (hist i) s (s.heap a).link + 4 := by
      simp only [collectStep, hpc, htmp, passWork, State.setCollector]
      cases s.collector.deleteFlag with
      | true => exact le_rfl
      | false => exact Nat.le_succ _
    omega
  · obtain ⟨-, -, ⟨b, hback, -, -⟩, -⟩ := hok
    simp only [collectStep, passWork, hpc, hback]
    exact Nat.lt_succ_self _

theorem Inv.nodesFrom_linkedIn {j : Fin n} (h : Inv hist s) (hpc : (s.updater j).pc = .insert)
    {p : Option Addr} (hp : ∀ a, p = some a → a ∈ hist i) :
    nodesFrom (extend hist j s.nextAddr i) (linkedIn s j) p = nodesFrom (hist i) s p := by
  cases p with
  | none => rfl
  | some a =>
    have ha := hp a rfl
    have hold : (hist i).filter (fun x => decide
        (((linkedIn s j).heap x).version ≤ ((linkedIn s j).heap a).version)) =
        (hist i).filter fun x => decide ((s.heap x).version ≤ (s.heap a).version) :=
      List.filter_congr fun x hx => by rw [h.lists.linkedIn_heap hx, h.lists.linkedIn_heap ha]
    by_cases hij : i = j
    · subst hij
      have hbefore : s.BeforeInsert i := by rw [State.BeforeInsert, hpc]; rfl
      have hnew := h.versions.pending i hbefore a ha
      rw [nodesFrom, extend_self, List.filter_cons_of_neg, hold, nodesFrom]
      rw [linkedIn_heap_new, h.lists.linkedIn_heap ha, decide_eq_true_eq]
      exact not_le.mpr hnew
    · rw [nodesFrom, extend_of_ne hij, hold, nodesFrom]

/-- A node that is linked in meanwhile is out of the collector's way, once it has read the head. -/
theorem Inv.passWork_linkedIn {j : Fin n} (h : Inv hist s) (hpc : (s.updater j).pc = .insert)
    (hon : s.collector.pc.onList i = true) :
    passWork (extend hist j s.nextAddr i) (linkedIn s j) + 4 * (hist i).length ≤
      passWork (hist i) s + 4 * (extend hist j s.nextAddr i).length := by
  have hlength : (hist i).length ≤ (extend hist j s.nextAddr i).length := by
    by_cases hij : i = j
    · subst hij
      rw [extend_self]
      exact Nat.le_succ _
    · rw [extend_of_ne hij]
  have hcollector : (linkedIn s j).collector = s.collector := rfl
  have hnodes : (s.collector.pc = .visit i ∨ s.collector.pc = .cut i ∨ s.collector.pc = .advance i ∨
      s.collector.pc = .free i) → nodesFrom (extend hist j s.nextAddr i) (linkedIn s j) s.collector.tmp =
        nodesFrom (hist i) s s.collector.tmp := fun hat =>
    h.nodesFrom_linkedIn hpc fun a ha => h.collector.tmp_mem hat ha
  simp only [passWork, hcollector]
  rcases CollectorPc.onList_iff.mp hon with hcpc | hcpc
  · simp only [hcpc]
    omega
  · rw [hnodes hcpc]
    rcases hcpc with hcpc | hcpc | hcpc | hcpc <;> simp only [hcpc] <;> omega

/-! ### Whole passes -/

theorem record_of_ne {e : Event n} (hinsert : ∀ j, e ≠ .insert j) : record hist s e = hist := by
  cases e with
  | insert j => exact absurd rfl (hinsert j)
  | _ => rfl

/-- What an event does to the memory: the collector acts, a node is linked in, or nothing happens. -/
theorem memory_cases (hist : Fin n → List Addr) (s : State n) (e : Event n) :
    e = .collect ∨ (∃ j, e = .insert j) ∨
      e ≠ .collect ∧ record hist s e = hist ∧ (effect s e).heap = s.heap ∧
        (effect s e).freed = s.freed ∧ (effect s e).collector = s.collector := by
  by_cases hcollect : e = .collect
  · exact .inl hcollect
  by_cases hinsert : ∃ j, e = .insert j
  · exact .inr (.inl hinsert)
  · push Not at hinsert
    obtain ⟨hheap, hfreed, -, hcollector⟩ := memory_effect (s := s) hinsert hcollect
    exact .inr (.inr ⟨hcollect, record_of_ne hinsert, hheap, hfreed, hcollector⟩)

theorem passWork_congr {l : List Addr} (hheap : s'.heap = s.heap)
    (hcollector : s'.collector = s.collector) : passWork l s' = passWork l s := by
  have hnodes : nodesFrom l s' = nodesFrom l s := by
    funext p
    cases p with
    | none => rfl
    | some a => rw [nodesFrom, nodesFrom, hheap]
  simp only [passWork, hcollector, hnodes]

theorem PassOk.step {e : Event n} (h : PassOk hist i m s) (hinv : Inv hist s)
    (hon : s.collector.pc.onList i = true) (hstep : Step s e s') :
    PassOk (record hist s e) i m s' ∧
      [e].count .collect + passWork (record hist s e i) s' + 4 * (hist i).length ≤
        passWork (hist i) s + 4 * (record hist s e i).length := by
  obtain ⟨henabled, rfl⟩ := hstep
  rcases memory_cases hist s e with rfl | ⟨j, rfl⟩ | ⟨hcollect, hsame, hheap, -, hcollector⟩
  · have hlt := hinv.passWork_collect hon
    refine ⟨h.collect hinv hon, ?_⟩
    simp only [record, effect, List.count_singleton_self]
    omega
  · have hzero : [Event.insert j].count .collect = 0 := List.count_eq_zero_of_not_mem (by simp)
    rw [hzero, Nat.zero_add]
    exact ⟨h.linkedIn hinv hon, hinv.passWork_linkedIn henabled hon⟩
  · have hzero : [e].count .collect = 0 :=
      List.count_eq_zero_of_not_mem fun hmem => hcollect (List.mem_singleton.mp hmem).symm
    rw [hzero, Nat.zero_add, hsame, passWork_congr hheap hcollector]
    exact ⟨h.congr hheap hcollector, le_rfl⟩

theorem history_append (later trace : List (Event n)) (i : Fin n) :
    ∃ inserted, history (later ++ trace) i = inserted ++ history trace i ∧
      inserted.length = later.count (.insert i) := by
  induction later with
  | nil => exact ⟨[], rfl, rfl⟩
  | cons e later ih =>
    obtain ⟨inserted, hhistory, hlength⟩ := ih
    by_cases he : e = .insert i
    · subst he
      refine ⟨(n + insertions (later ++ trace)) :: inserted, ?_, ?_⟩
      · rw [List.cons_append, history, Function.update_self, hhistory, List.cons_append]
      · rw [List.length_cons, hlength, List.count_cons_self]
    · refine ⟨inserted, ?_, by rw [hlength, List.count_cons_of_ne he]⟩
      rw [List.cons_append, ← hhistory]
      cases e with
      | insert j =>
        rw [history, Function.update_of_ne]
        rintro rfl
        exact he rfl
      | _ => rfl

/-- The steps, of any thread, while the collector is at work on list `i`. -/
abbrev PassStep (i : Fin n) : State n → Event n → State n → Prop :=
  Restrict Step fun s _ => s.collector.pc.onList i = true

theorem Inv.passOk_readMinimum (h : Inv hist s) (hpc : s.collector.pc = .readMinimum i) :
    PassOk hist i (s.queue i).minimum (collectStep s) := by
  simp only [collectStep, hpc]
  refine ⟨rfl, fun a b hab hle => ?_, trivial⟩
  rcases h.lists.link i a b hab with hlink | ⟨-, hlt⟩
  · exact hlink
  · exact absurd hle (not_le.mpr hlt)

theorem passOk_of_run {a b : Fin n → BitVec 32} {trace later : List (Event n)}
    (hrun : Run Step (initial a b) trace s) (hpc : s.collector.pc = .readMinimum i)
    (hlater : Run (PassStep i) (effect s .collect) later s') :
    Run Step (initial a b) (later ++ .collect :: trace) s' ∧
      PassOk (history (later ++ .collect :: trace)) i (s.queue i).minimum s' ∧
      later.count .collect + passWork (history (later ++ .collect :: trace) i) s' ≤
        4 * (history (later ++ .collect :: trace) i).length + 4 ∧
      ∀ x ∈ history trace i, (s'.heap x).version = (s.heap x).version := by
  have hread : Step s .collect (effect s .collect) := ⟨by rw [Enabled, hpc]; simp, rfl⟩
  have hinv := inv_of_run hrun
  induction hlater with
  | nil =>
    refine ⟨.cons hrun hread, hinv.passOk_readMinimum hpc, ?_, fun x hx => version_step hinv hread hx⟩
    simp [effect, collectStep, hpc, passWork, State.setCollector, history]
  | @cons later s₁ s' e _ hstep ih =>
    obtain ⟨hrun₁, hok, hwork, hversion⟩ := ih
    have hinv₁ := inv_of_run hrun₁
    obtain ⟨hok', hwork'⟩ := hok.step hinv₁ hstep.2 hstep.1
    rw [← history_cons e (nextAddr_of_run hrun₁)] at hok' hwork'
    refine ⟨.cons hrun₁ hstep.1, hok', ?_, fun x hx => ?_⟩
    · have hcount : (e :: later).count .collect = [e].count .collect + later.count .collect := by
        rw [← List.count_append, List.singleton_append]
      rw [hcount, List.cons_append]
      omega
    · obtain ⟨inserted, hhistory, -⟩ := history_append later (.collect :: trace) i
      have hmem : x ∈ history (later ++ .collect :: trace) i := by
        rw [hhistory]
        exact List.mem_append_right _ hx
      rw [version_step hinv₁ hstep.1 hmem, hversion x hx]

/-- In every state of every run `minimum` does not decrease with the next step and is at most the
version of the list's head; the collector has a node to cut behind, and frees no head; and a pass over
list `i` that begins there ends after a bounded number of the collector's actions, and then the list
holds the nodes linked in meanwhile and, in their order, the nodes it held from the threshold on. -/
theorem collector_keeps_from_minimum {a b : Fin n → BitVec 32} {trace : List (Event n)}
    (hrun : Run Step (initial a b) trace s) :
    (∀ e s' p, Step s e s' → (s.queue p).minimum ≤ (s'.queue p).minimum) ∧
      (∀ p, (s.queue p).minimum ≤ (s.heap (s.singlyList p)).version) ∧
      (∀ i, s.collector.pc = .cut i → s.collector.back ≠ none) ∧
      (∀ i, s.collector.pc = .free i → ∃ x, s.collector.back = some x ∧ ∀ p, x ≠ s.singlyList p) ∧
      ∀ i, s.collector.pc = .readMinimum i →
        ∃ nodes, Visits (fun x => (s.heap x).link) (some (s.singlyList i)) nodes ∧
          ∀ later s', Run (PassStep i) (effect s .collect) later s' →
            ∃ inserted, history (later ++ .collect :: trace) i = inserted ++ history trace i ∧
              inserted.length = later.count (.insert i) ∧
              later.count .collect ≤ 4 * (inserted.length + (history trace i).length) + 4 ∧
              (s'.collector.pc = .visit i → s'.collector.tmp = none →
                Visits (fun x => (s'.heap x).link) (some (s'.singlyList i))
                  (inserted ++ nodes.filter fun x =>
                    decide ((s.queue i).minimum ≤ (s.heap x).version))) := by
  have hinv := inv_of_run hrun
  have hok := hinv.collector
  refine ⟨fun e s' p hstep => hinv.minimum_le_step hstep p, hinv.minimum_le_head, fun i hpc => ?_,
    fun i hpc => ?_, fun i hpc => ?_⟩
  · simp only [CollectorOk, hpc] at hok
    obtain ⟨-, -, x, y, -, hback, -, -⟩ := hok
    simp [hback]
  · simp only [CollectorOk, hpc] at hok
    obtain ⟨hle, -, ⟨x, hback, hmem, hlt⟩, -⟩ := hok
    exact ⟨x, hback, hinv.ne_head_of_lt hmem (lt_of_lt_of_le hlt hle)⟩
  obtain ⟨nodes, rest, hsplit, hvisits, hstop⟩ := hinv.lists.exists_visits i
  refine ⟨nodes, hvisits, fun later s' hlater => ?_⟩
  obtain ⟨hrun', hpass, hwork, hversion⟩ := passOk_of_run hrun hpc hlater
  obtain ⟨inserted, hhistory, hlength⟩ := history_append later (.collect :: trace) i
  rw [show history (.collect :: trace) = history trace from rfl] at hhistory
  have hlists := (inv_of_run hrun').lists
  refine ⟨inserted, hhistory, hlength, ?_, fun hend htmp => ?_⟩
  · rw [hhistory, List.length_append] at hwork
    exact (Nat.le_add_right _ _).trans hwork
  · have hkept := hpass.visits hlists hend htmp
    have hhead := hinv.lists.head_mem i
    -- a node linked in meanwhile is newer than the head at the start
    have hnew : ∀ x ∈ inserted, (s.queue i).minimum ≤ (s'.heap x).version := by
      intro x hx
      have hsorted := hlists.sorted i
      rw [hhistory] at hsorted
      have hlower := (List.pairwise_append.mp hsorted).2.2 x hx _ hhead
      rw [hversion _ hhead] at hlower
      exact (hinv.minimum_le_head i).trans (by exact_mod_cast hlower.le)
    have hrest : ∀ x ∈ rest, ((s.heap x).version : ℤ) < (s.queue i).minimum := by
      refine hinv.lists.lt_of_head hsplit fun x hx => ?_
      obtain ⟨y, hyx, hnone⟩ := hstop x hx
      rcases hinv.lists.link i y x hyx with hlink | ⟨-, hlt⟩
      · rw [hlink] at hnone
        cases hnone
      · exact hlt
    have hold : (history trace i).filter (fun x => decide ((s.queue i).minimum ≤ (s'.heap x).version)) =
        nodes.filter fun x => decide ((s.queue i).minimum ≤ (s.heap x).version) := by
      have hnone : rest.filter (fun x => decide ((s.queue i).minimum ≤ (s.heap x).version)) = [] :=
        List.filter_eq_nil_iff.mpr (by simpa using hrest)
      rw [List.filter_congr fun x hx => by rw [hversion x hx], hsplit, List.filter_append, hnone,
        List.append_nil]
    rwa [hhistory, List.filter_append, List.filter_eq_self.mpr (by simpa using hnew), hold] at hkept

/-- Thread `0` updates, and thread `1` reads it with the version thread `0` was active with; `x` is the
`A` of the node each of them finds. -/
def readRound (x : BitVec 32) : List (Event 2) :=
  [.testRun 0, .pick 0 1, .enter 0, .testRun 1, .pick 1 0, .enter 1, .readHead 0, .readOwn 0,
    .readA 0 x, .readAAgain 0 x, .insert 0, .leave 0, .countUp 0, .readHead 1, .readOwn 1, .search 1,
    .search 1, .readA 1 x, .readAAgain 1 x, .insert 1, .leave 1, .countUp 1]

/-- After two rounds the collector begins with list `0`, whose `minimum` is the version of the middle
one of its three nodes. -/
def beforePass : List (Event 2) := readRound 5 ++ readRound 10 ++ [.collect, .collect]

def wholePass : List (Event 2) := List.replicate 9 .collect

theorem collector_keeps_from_minimum_twoRounds :
    let s := execute effect (initial (fun _ => 5) fun _ => 7) beforePass
    let s' := execute effect (effect s .collect) wholePass
    s.collector.pc = .readMinimum 0 ∧ (s.queue 0).minimum = 1 ∧
      Visits (fun x => (s.heap x).link) (some (s.singlyList 0)) [4, 2, 0] ∧
      Visits (fun x => (s'.heap x).link) (some (s'.singlyList 0)) [4, 2] ∧ s'.freed 0 = true := by
  intro s s'
  have hrun : Run Step (initial (fun _ => 5) fun _ => 7) beforePass.reverse s :=
    run_execute (by decide +kernel)
  have hrun' : Run (PassStep 0) (effect s .collect) wholePass.reverse s' :=
    run_execute_restrict (by decide +kernel)
  have hstart : s.collector.pc = .readMinimum 0 ∧ (s.queue 0).minimum = 1 ∧
      Visits (fun x => (s.heap x).link) (some (s.singlyList 0)) [4, 2, 0] := by decide +kernel
  have hend : s'.collector.pc = .visit 0 ∧ s'.collector.tmp = none ∧ s'.freed 0 = true := by
    decide +kernel
  have hfilter : [4, 2, 0].filter (fun x => decide ((s.queue 0).minimum ≤ (s.heap x).version)) =
      [4, 2] := by decide +kernel
  -- from here on the two states stay what their facts say of them
  clear_value s s'
  obtain ⟨-, -, -, -, hpass⟩ := collector_keeps_from_minimum hrun
  obtain ⟨nodes, hnodes, hlater⟩ := hpass 0 hstart.1
  obtain ⟨inserted, -, hlength, -, hkept⟩ := hlater _ s' hrun'
  obtain rfl : nodes = [4, 2, 0] := hnodes.unique hstart.2.2
  obtain rfl : inserted = [] := List.eq_nil_of_length_eq_zero (hlength.trans (by decide))
  rw [hfilter, List.nil_append] at hkept
  exact ⟨hstart.1, hstart.2.1, hstart.2.2, hkept hend.1 hend.2.1, hend.2.2⟩

end Multicore.Mvcc
