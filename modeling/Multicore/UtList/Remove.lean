import Multicore.UtList.Invariant

/-!
# The steps of a remove keep the invariant

The second relinking store takes the element out of the list. Up to there the remove works from the
predecessor it has read, so it needs that predecessor to be the real one: no prepend may still owe
its store to the `prev` field that is read.
-/

namespace Multicore.UtList

variable {α : Type*} {L : List α} {s : State α} {r r' : Remover α}

/-! ### Steps that only move the locals -/

theorem Inv.set_remover (h : Inv L s) (hr : s.remover = some r) (helem : r'.elem = r.elem)
    (hunlinked : r'.pc.unlinked = r.pc.unlinked) (hbypassing : r'.pc.bypassing = r.pc.bypassing)
    (huncounted : r'.pc.uncounted = r.pc.uncounted) (hok : RemoverOk L s r') :
    Inv L { s with remover := some r' } := by
  have hremoving : ∀ (phase : RemovePc → Bool) (x : α), phase r'.pc = phase r.pc →
      (State.Removing { s with remover := some r' } phase x ↔ s.Removing phase x) := by
    intro phase x hphase
    rw [State.removing_iff hr, State.removing_iff (r := r') rfl, helem, hphase]
  refine ⟨h.nodup, h.start, fun e => ?_, h.removed, h.cleared, h.next, h.pending, h.pendingPrev,
    fun b hb hready => h.prev b hb fun a ha => ?_, fun r'' hr'' => ?_, ?_⟩
  · rw [hremoving _ _ hunlinked]
    exact h.mem e
  · rw [← hremoving _ _ hbypassing]
    exact hready a ha
  · obtain rfl : r' = r'' := Option.some.inj hr''
    exact ⟨hok.inserted, hok.notRemoved, hok.preceded, hok.bypass, hok.node, hok.first, hok.count⟩
  · have hsame : State.uncounted { s with remover := some r' } = s.uncounted := by
      simp only [State.uncounted, hr, huncounted]
    rw [hsame]
    exact h.count

theorem Inv.enter (h : Inv L s) (hr : s.remover = none) {x : α} (hx : s.prepend x = .inserted)
    (hlive : s.removed x = false) :
    Inv L { s with remover := some { elem := x, pc := .checkCount, prev := none, count := 0 } } := by
  have hold : ∀ (phase : RemovePc → Bool) (y : α), ¬ s.Removing phase y := fun phase y =>
    State.removing_none hr
  refine ⟨h.nodup, h.start, fun e => ?_, h.removed, h.cleared, h.next, h.pending, h.pendingPrev,
    fun b hb hready => h.prev b hb fun a ha => ⟨(hready a ha).1, hold _ a⟩, fun r'' hr'' => ?_, ?_⟩
  · rw [State.removing_iff rfl, h.mem e]
    simp [hold, RemovePc.unlinked]
  · obtain rfl := Option.some.inj hr''
    refine ⟨hx, hlive, ?_, ?_, ?_, ?_, ?_⟩ <;> intro hpc <;>
      simp [RemovePc.linking, RemovePc.bypassing] at hpc
  · rw [h.count]
    simp [State.uncounted, hr, RemovePc.uncounted]

variable [DecidableEq α]

theorem Inv.checkCount (h : Inv L s) (hr : s.remover = some r) (hpc : r.pc = .checkCount) :
    Inv L (removeStep s r) := by
  simp only [removeStep, hpc]
  refine h.set_remover hr rfl (by rw [hpc]; rfl) (by rw [hpc]; rfl) (by rw [hpc]; rfl) ?_
  have hok := h.remover r hr
  refine ⟨hok.inserted, hok.notRemoved, ?_, ?_, ?_, ?_, ?_⟩ <;> intro hpc <;>
    simp [RemovePc.linking, RemovePc.bypassing] at hpc

/-- What is read is the real predecessor when no prepend owes a store to the field. -/
theorem Inv.loadPrev (h : Inv L s) (hr : s.remover = some r) (hpc : r.pc = .loadPrev)
    (hfree : ∀ e, (s.prepend e).linking = true → s.prependPrev e ≠ some r.elem) :
    Inv L (removeStep s r) := by
  have hok := h.remover r hr
  have hmem : r.elem ∈ L := h.mem_of_remover hr (by rw [hpc]; rfl)
  have hdone : ∀ a, Consecutive L a r.elem → (s.prepend a).linking = false := by
    intro a ha
    by_contra hlink
    have hlink : (s.prepend a).linking = true := by simpa using hlink
    have hpending := h.pending a ha.mem_left hlink
    exact hfree a hlink (hpending.unique h.nodup ha)
  have hbypassing : ∀ a, ¬ s.Removing RemovePc.bypassing a := fun a => by
    rw [State.removing_iff hr, hpc]
    simp [RemovePc.bypassing]
  simp only [removeStep, hpc]
  refine h.set_remover hr rfl (by rw [hpc]; rfl) (by rw [hpc]; rfl) (by rw [hpc]; rfl) ?_
  refine ⟨hok.inserted, hok.notRemoved, fun _ => ⟨?_, rfl, hdone⟩, ?_, ?_, ?_, ?_⟩
  · exact h.prev _ hmem fun a ha => ⟨hdone a ha, hbypassing a⟩
  all_goals
    intro hpc
    simp [RemovePc.bypassing] at hpc

theorem Inv.testPrev (h : Inv L s) (hr : s.remover = some r) (hpc : r.pc = .testPrev) :
    Inv L (removeStep s r) := by
  have hok := h.remover r hr
  have hpreceded := hok.preceded (by rw [hpc]; rfl)
  have hbypass := hok.bypass (by rw [hpc]; rfl)
  simp only [removeStep, hpc, hpreceded.2.1]
  by_cases hnone : r.prev = none
  · simp only [if_pos hnone]
    refine h.set_remover hr rfl (by rw [hpc]; rfl) (by rw [hpc]; rfl) (by rw [hpc]; rfl) ?_
    exact ⟨hok.inserted, hok.notRemoved, fun _ => hpreceded, fun _ => hbypass, by simp, fun _ => hnone,
      by simp⟩
  · simp only [if_neg hnone]
    refine h.set_remover hr rfl (by rw [hpc]; rfl) (by rw [hpc]; rfl) (by rw [hpc]; rfl) ?_
    exact ⟨hok.inserted, hok.notRemoved, fun _ => hpreceded, fun _ => hbypass, fun _ => hnone, by simp,
      by simp⟩

theorem Inv.loadPrevNode (h : Inv L s) (hr : s.remover = some r) (hpc : r.pc = .loadPrevNode) :
    Inv L (removeStep s r) := by
  have hok := h.remover r hr
  have hpreceded := hok.preceded (by rw [hpc]; rfl)
  have hbypass := hok.bypass (by rw [hpc]; rfl)
  simp only [removeStep, hpc, hpreceded.2.1]
  refine h.set_remover hr rfl (by rw [hpc]; rfl) (by rw [hpc]; rfl) (by rw [hpc]; rfl) ?_
  exact ⟨hok.inserted, hok.notRemoved, fun _ => hpreceded, fun _ => hbypass,
    fun _ => hok.node (.inl hpc), by simp, by simp⟩

theorem Inv.loadCount (h : Inv L s) (hr : s.remover = some r) (hpc : r.pc = .loadCount) :
    Inv L (removeStep s r) := by
  have hok := h.remover r hr
  simp only [removeStep, hpc]
  refine h.set_remover hr rfl (by rw [hpc]; rfl) (by rw [hpc]; rfl) (by rw [hpc]; rfl) ?_
  exact ⟨hok.inserted, hok.notRemoved, by simp [RemovePc.linking], by simp [RemovePc.bypassing],
    by simp, by simp, fun _ => rfl⟩

/-! ### Relinking -/

/-- The first relinking store: the element behind gets the predecessor that was read. -/
theorem Inv.storeNextPrev (h : Inv L s) (hr : s.remover = some r) (hpc : r.pc = .storeNextPrev) :
    Inv L (removeStep s r) := by
  have hok := h.remover r hr
  obtain ⟨hpreceded, hsame, hdone⟩ := hok.preceded (by rw [hpc]; rfl)
  have hmem : r.elem ∈ L := hpreceded.mem
  have hfollowed : FollowedBy L r.elem (s.next r.elem) :=
    h.next _ hmem (by rw [hok.inserted]; decide)
  obtain ⟨s', hs'⟩ : ∃ s', s' = removeStep s r := ⟨_, rfl⟩
  rw [← hs']
  simp only [removeStep, hpc] at hs'
  have hfields : s' = { s with
      listEnd := s'.listEnd, prev := s'.prev, remover := some { r with pc := .testPrev } } := by
    rw [hs']
    cases s.next r.elem <;> rfl
  -- the store goes to the element behind, if there is one
  have hbehind : ∀ b, Consecutive L r.elem b → s'.prev b = r.prev := by
    intro b hb
    have hnext : s.next r.elem = some b := hfollowed.unique h.nodup hb
    rw [hs', hnext]
    exact Function.update_self _ _ _
  have hother : ∀ b, ¬ Consecutive L r.elem b → s'.prev b = s.prev b := by
    intro b hb
    rw [hs']
    cases hnext : s.next r.elem with
    | none => rfl
    | some b' =>
      rw [hnext] at hfollowed
      refine Function.update_of_ne (fun heq => hb ?_) _ _
      rw [heq]
      exact hfollowed
  have hself : s'.prev r.elem = s.prev r.elem := hother _ fun hloop => hloop.ne h.nodup rfl
  have hremover : s'.remover = some { r with pc := .testPrev } := by rw [hfields]
  have hprepend : s'.prepend = s.prepend := by rw [hfields]
  refine ⟨h.nodup, by rw [hfields]; exact h.start, fun e => ?_, by rw [hfields]; exact h.removed,
    fun e he => ?_, by rw [hfields]; exact h.next, by rw [hfields]; exact h.pending,
    by rw [hfields]; exact h.pendingPrev, fun b hb hready => ?_, fun r' hr' => ?_, ?_⟩
  · rw [State.removing_iff hremover, h.mem e, State.removing_iff hr, hpc, hfields]
    rfl
  · rw [hprepend] at he
    rw [hother e fun hbe => h.not_mem_of_prepend (by rw [he]; rfl) hbe.mem_right]
    exact h.cleared e he
  · have hb' : ¬ Consecutive L r.elem b := fun hbehind =>
      (hready _ hbehind).2 ⟨_, hremover, rfl, rfl⟩
    rw [hother b hb']
    refine h.prev b hb fun a ha => ⟨?_, ?_⟩
    · rw [← hprepend]
      exact (hready a ha).1
    · rw [State.removing_iff hr, hpc]
      simp [RemovePc.bypassing]
  · rw [hremover] at hr'
    obtain rfl := Option.some.inj hr'
    refine ⟨by rw [hprepend]; exact hok.inserted, by rw [hfields]; exact hok.notRemoved,
      fun _ => ⟨hpreceded, hself.trans hsame, by rw [hprepend]; exact hdone⟩, fun _ => hbehind,
      by simp, by simp, by simp⟩
  · have hcount := h.count
    simp only [State.uncounted, hr, hpc] at hcount
    rw [hprepend, show s'.count = s.count by rw [hfields], hcount]
    simp [State.uncounted, hremover, RemovePc.uncounted]

/-- The first relinking store has given the element behind `r.elem` its new `prev`, so without
`r.elem` every `prev` is right. -/
theorem Inv.precededBy_erase (h : Inv L s) (hr : s.remover = some r) (hlink : r.pc.linking = true)
    (hbypass : r.pc.bypassing = true) {b : α} (hb : b ∈ L) (hne : b ≠ r.elem)
    (hready : ∀ a, Consecutive (L.erase r.elem) a b → (s.prepend a).linking = false) :
    PrecededBy (L.erase r.elem) b (s.prev b) := by
  have hok := h.remover r hr
  by_cases hxb : Consecutive L r.elem b
  · rw [hok.bypass hbypass b hxb]
    exact (hok.preceded hlink).1.erase_over h.nodup hxb
  · have hpreceded : PrecededBy L b (s.prev b) := by
      refine h.prev b hb fun a ha => ⟨?_, ?_⟩
      · have hax : a ≠ r.elem := fun heq => hxb (heq ▸ ha)
        exact hready a ((consecutive_erase h.nodup).mpr (.inl ⟨ha, hax, hne⟩))
      · rw [State.removing_iff hr]
        rintro ⟨rfl, _⟩
        exact hxb ha
    refine hpreceded.erase h.nodup hne fun heq => hxb ?_
    rwa [heq] at hpreceded

/-- The second relinking store takes the element out of the list: the element before it gets its
`next`, or the list starts with it. -/
theorem Inv.unlink {s' : State α} (h : Inv L s) (hr : s.remover = some r)
    (hpc : r.pc = .storePrevNext ∨ r.pc = .storeStart)
    (hs' : s' = { s with
      listStart := s'.listStart, next := s'.next, remover := some { r with pc := .loadCount } })
    (hnext : ∀ a, Consecutive L a r.elem → s'.next a = s.next r.elem)
    (hnextOther : ∀ a, ¬ Consecutive L a r.elem → s'.next a = s.next a)
    (hstart : L.head? = some r.elem → s'.listStart = s.next r.elem)
    (hstartOther : L.head? ≠ some r.elem → s'.listStart = s.listStart) :
    Inv (L.erase r.elem) s' := by
  have hok := h.remover r hr
  have hlinking : r.pc.linking = true := by rcases hpc with hpc | hpc <;> rw [hpc] <;> rfl
  have hbypassing : r.pc.bypassing = true := by rcases hpc with hpc | hpc <;> rw [hpc] <;> rfl
  have huncounted : r.pc.uncounted = false := by rcases hpc with hpc | hpc <;> rw [hpc] <;> rfl
  have hunlinked : r.pc.unlinked = false := by rcases hpc with hpc | hpc <;> rw [hpc] <;> rfl
  obtain ⟨hpreceded, hsame, hdone⟩ := hok.preceded hlinking
  have hmem : r.elem ∈ L := hpreceded.mem
  have hfollowed : FollowedBy L r.elem (s.next r.elem) :=
    h.next _ hmem (by rw [hok.inserted]; decide)
  have hprepend : s'.prepend = s.prepend := by rw [hs']
  have hprev : s'.prev = s.prev := by rw [hs']
  have hremover : s'.remover = some { r with pc := .loadCount } := by rw [hs']
  have herase : ∀ a, a ∈ L.erase r.elem ↔ a ≠ r.elem ∧ a ∈ L := fun a => h.nodup.mem_erase_iff
  refine ⟨h.nodup.erase _, ?_, fun e => ?_, by rw [hs']; exact h.removed, by rw [hs']; exact h.cleared,
    fun a ha hstore => ?_, fun a ha hlink => ?_, by rw [hs']; exact h.pendingPrev,
    fun b hb hready => ?_, fun r' hr' => ?_, ?_⟩
  · by_cases hhead : L.head? = some r.elem
    · rw [hstart hhead, hfollowed.head?_erase h.nodup hhead]
    · rw [hstartOther hhead, h.start, head?_erase_of_ne hhead]
  · have hold : ¬ s.Removing RemovePc.unlinked e := by
      rw [State.removing_iff hr, hunlinked]
      simp
    have hnew : s'.Removing RemovePc.unlinked e ↔ r.elem = e := by
      rw [State.removing_iff hremover]
      simp [RemovePc.unlinked]
    rw [herase, h.mem e, hnew, hprepend, show s'.removed = s.removed by rw [hs']]
    constructor
    · exact fun ⟨hne, hexchanged, hlive, _⟩ => ⟨hexchanged, hlive, fun heq => hne heq.symm⟩
    · exact fun ⟨hexchanged, hlive, hne⟩ => ⟨fun heq => hne heq.symm, hexchanged, hlive, hold⟩
  · obtain ⟨hne, ha⟩ := (herase a).mp ha
    rw [hprepend] at hstore
    by_cases hax : Consecutive L a r.elem
    · rw [hnext a hax]
      exact hfollowed.erase_over h.nodup hax
    · rw [hnextOther a hax]
      refine (h.next a ha hstore).erase h.nodup hne fun heq => hax ?_
      have := h.next a ha hstore
      rwa [heq] at this
  · obtain ⟨hne, ha⟩ := (herase a).mp ha
    rw [hprepend] at hlink
    rw [show s'.prependPrev = s.prependPrev by rw [hs']]
    have hpending := h.pending a ha hlink
    refine hpending.erase h.nodup hne fun heq => ?_
    rw [heq] at hpending
    exact absurd (hdone a hpending) (by simp [hlink])
  · obtain ⟨hne, hb⟩ := (herase b).mp hb
    rw [hprev]
    refine h.precededBy_erase hr hlinking hbypassing hb hne fun a ha => ?_
    rw [← hprepend]
    exact (hready a ha).1
  · rw [hremover] at hr'
    obtain rfl := Option.some.inj hr'
    exact ⟨by rw [hprepend]; exact hok.inserted, by rw [hs']; exact hok.notRemoved,
      by simp [RemovePc.linking], by simp [RemovePc.bypassing], by simp, by simp, by simp⟩
  · have hperm := (List.perm_cons_erase hmem).countP_eq fun e => decide (s.prepend e = .inserted)
    have hcount := h.count
    simp only [State.uncounted, hr, huncounted] at hcount
    rw [hprepend, show s'.count = s.count by rw [hs'], hcount, hperm, List.countP_cons]
    simp [State.uncounted, hremover, RemovePc.uncounted, hok.inserted]

theorem Inv.storePrevNext (h : Inv L s) (hr : s.remover = some r) (hpc : r.pc = .storePrevNext) :
    Inv (L.erase r.elem) (removeStep s r) := by
  have hok := h.remover r hr
  have hpreceded := (hok.preceded (by rw [hpc]; rfl)).1
  obtain ⟨a, ha⟩ := Option.ne_none_iff_exists'.mp (hok.node (.inr hpc))
  rw [ha] at hpreceded
  simp only [removeStep, hpc, ha]
  refine h.unlink hr (.inl hpc) (by rw [← ha]) (fun b hb => ?_) (fun b hb => ?_) (fun hhead => ?_)
    fun _ => rfl
  · rw [hb.left_unique h.nodup hpreceded]
    exact Function.update_self _ _ _
  · refine Function.update_of_ne (fun heq => hb ?_) _ _
    rw [heq]
    exact hpreceded
  · exact absurd hhead (Consecutive.ne_head h.nodup hpreceded)

theorem Inv.storeStart (h : Inv L s) (hr : s.remover = some r) (hpc : r.pc = .storeStart) :
    Inv (L.erase r.elem) (removeStep s r) := by
  have hok := h.remover r hr
  have hpreceded := (hok.preceded (by rw [hpc]; rfl)).1
  rw [hok.first hpc] at hpreceded
  simp only [removeStep, hpc]
  refine h.unlink hr (.inr hpc) rfl (fun b hb => ?_) (fun _ _ => rfl) (fun _ => rfl) fun hhead => ?_
  · exact absurd hpreceded (hb.ne_head h.nodup)
  · exact absurd hpreceded hhead

/-! ### The count, and leaving the mutex -/

theorem Inv.storeCount (h : Inv L s) (hr : s.remover = some r) (hpc : r.pc = .storeCount) :
    Inv L (removeStep s r) := by
  have hok := h.remover r hr
  simp only [removeStep, hpc]
  refine ⟨h.nodup, h.start, fun e => ?_, h.removed, h.cleared, h.next, h.pending, h.pendingPrev,
    fun b hb hready => h.prev b hb fun a ha => ⟨(hready a ha).1, ?_⟩, fun r' hr' => ?_, ?_⟩
  · rw [State.removing_iff rfl, h.mem e, State.removing_iff hr, hpc]
    rfl
  · rw [State.removing_iff hr, hpc]
    simp [RemovePc.bypassing]
  · obtain rfl := Option.some.inj hr'
    exact ⟨hok.inserted, hok.notRemoved, by simp [RemovePc.linking], by simp [RemovePc.bypassing],
      by simp, by simp, by simp⟩
  · have hcount := h.count
    simp only [State.uncounted, hr, hpc, RemovePc.uncounted, if_true] at hcount
    change r.count - 1 = _
    rw [hok.count hpc, hcount]
    simp [State.uncounted, RemovePc.uncounted]

theorem Inv.exit (h : Inv L s) (hr : s.remover = some r) (hpc : r.pc = .exit) :
    Inv L (removeStep s r) := by
  have hok := h.remover r hr
  simp only [removeStep, hpc]
  refine ⟨h.nodup, h.start, fun e => ?_, fun e he => ?_, h.cleared, h.next, h.pending, h.pendingPrev,
    fun b hb hready => h.prev b hb fun a ha => ⟨(hready a ha).1, ?_⟩, fun r' hr' => ?_, ?_⟩
  · have hnone : ¬ State.Removing { s with
        remover := none, removed := Function.update s.removed r.elem true } RemovePc.unlinked e :=
      State.removing_none rfl
    rw [h.mem e, State.removing_iff hr, hpc]
    by_cases he : e = r.elem
    · subst he
      simp [RemovePc.unlinked]
    · simp [hnone, he, Ne.symm he]
  · by_cases hre : e = r.elem
    · rw [hre]
      exact hok.inserted
    · exact h.removed e ((Function.update_of_ne hre true s.removed).symm.trans he)
  · rw [State.removing_iff hr, hpc]
    simp [RemovePc.bypassing]
  · cases hr'
  · have hcount := h.count
    simp only [State.uncounted, hr, hpc, RemovePc.uncounted] at hcount
    exact hcount

end Multicore.UtList
