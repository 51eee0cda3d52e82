import Multicore.UtList.Invariant

/-!
# The steps of a prepend keep the invariant

The exchange puts the new element in front of the list; every other step completes a pointer or
moves the call on. None of them needs anything of other prepends. A remove is in the way at two
places: the exchange must not find the element that is being relinked at the head, and the increment
must not fall between the two halves of a decrement.
-/

namespace Multicore.UtList

variable {α : Type*} {L : List α} {s : State α} {e : α}

/-! ### Steps that leave the list as it is -/

/-- The holder of the mutex is not the element whose prepend moves. -/
theorem Inv.elem_ne (h : Inv L s) (hins : s.prepend e ≠ .inserted) {r : Remover α}
    (hr : s.remover = some r) : r.elem ≠ e := by
  rintro rfl
  exact hins (h.remover r hr).inserted

variable [DecidableEq α] {s' : State α} {pc : PrependPc}

/-- A phase the step does not change at `e` is not changed anywhere. -/
theorem phase_update (phase : PrependPc → Bool)
    (hprepend : s'.prepend = Function.update s.prepend e pc) (hself : phase pc = phase (s.prepend e)) (a : α) :
    phase (s'.prepend a) = phase (s.prepend a) := by
  rw [hprepend]
  by_cases ha : a = e
  · subst ha
    rw [Function.update_self, hself]
  · rw [Function.update_of_ne ha]

/-- Before its increment an element does not count, whatever step its prepend makes. -/
theorem countP_inserted_update (hprepend : s'.prepend = Function.update s.prepend e pc)
    (hold : s.prepend e ≠ .inserted) (hnew : pc ≠ .inserted) :
    L.countP (fun a => s'.prepend a = .inserted) = L.countP (fun a => s.prepend a = .inserted) := by
  congr 1
  funext a
  rw [hprepend]
  by_cases ha : a = e
  · subst ha
    simp [hold, hnew]
  · rw [Function.update_of_ne ha]

/-- A step of the prepend of `e` that leaves the list as it is. The hypotheses after the first ones
are what the invariant says of the pointers the step may write. -/
theorem Inv.prepend_move (h : Inv L s) (hins : s.prepend e ≠ .inserted)
    (hprepend : s'.prepend = Function.update s.prepend e pc)
    (hexchanged : pc.exchanged = (s.prepend e).exchanged)
    (hlinking : (s.prepend e).linking = false → pc.linking = false)
    (hstart : s'.listStart = s.listStart) (hremover : s'.remover = s.remover)
    (hremoved : s'.removed = s.removed) (hprependPrev : s'.prependPrev = s.prependPrev)
    (hcleared : ∀ a, s'.prepend a = .exchange → s'.prev a = none)
    (hnextOther : ∀ a, a ≠ e → s'.next a = s.next a)
    (hnext : e ∈ L → pc ≠ .storeNext → FollowedBy L e (s'.next e))
    (hpendingPrev : pc = .storePrev → s.prependPrev e ≠ none)
    (hprev : ∀ b ∈ L, (∀ a, Consecutive L a b → (s'.prepend a).linking = false ∧
      ¬ s.Removing RemovePc.bypassing a) → PrecededBy L b (s'.prev b))
    (hremoverPrev : ∀ r, s.remover = some r → r.pc.linking = true → s'.prev r.elem = s.prev r.elem)
    (hbypass : ∀ r, s.remover = some r → r.pc.bypassing = true → ∀ b, Consecutive L r.elem b →
      s'.prev b = s.prev b)
    (hloaded : s.removerAt .storeCount → s'.count = s.count)
    (hcount : s'.count = L.countP (fun a => s'.prepend a = .inserted) + s.uncounted) :
    Inv L s' := by
  have hother : ∀ a, a ≠ e → s'.prepend a = s.prepend a := fun a ha => by
    rw [hprepend, Function.update_of_ne ha]
  have hself : s'.prepend e = pc := by rw [hprepend, Function.update_self]
  have hdone : ∀ a, (s.prepend a).linking = false → (s'.prepend a).linking = false := by
    intro a ha
    by_cases hae : a = e
    · subst hae
      rw [hself]
      exact hlinking ha
    · rwa [hother a hae]
  refine ⟨h.nodup, hstart.trans h.start,
    h.mem_congr (phase_update _ hprepend hexchanged) hremoved hremover, fun a ha => ?_, hcleared,
    fun a ha hstore => ?_, fun a ha hlink => ?_, fun a ha => ?_, fun b hb hready => ?_,
    fun r hr => ?_, ?_⟩
  · have hinserted : s.prepend a = .inserted := h.removed a (hremoved ▸ ha)
    rw [hother a fun heq => hins (heq ▸ hinserted)]
    exact hinserted
  · by_cases hae : a = e
    · subst hae
      rw [hself] at hstore
      exact hnext ha hstore
    · rw [hnextOther a hae]
      rw [hother a hae] at hstore
      exact h.next a ha hstore
  · rw [hprependPrev]
    refine h.pending a ha ?_
    by_contra hfalse
    exact absurd (hdone a (by simpa using hfalse)) (by simp [hlink])
  · rw [hprependPrev]
    by_cases hae : a = e
    · subst hae
      exact hpendingPrev (hself.symm.trans ha)
    · rw [hother a hae] at ha
      exact h.pendingPrev a ha
  · refine hprev b hb fun a ha => ?_
    have hsame : s'.Removing RemovePc.bypassing a ↔ s.Removing RemovePc.bypassing a := by
      unfold State.Removing
      rw [hremover]
    rw [← hsame]
    exact hready a ha
  · rw [hremover] at hr
    refine (h.remover r hr).congr (hother _ (h.elem_ne hins hr)) hremoved (hremoverPrev r hr) hdone
      (hbypass r hr) fun hpc => hloaded ?_
    rw [State.removerAt, hr, Option.map_some, hpc]
  · rw [uncounted_congr hremover]
    exact hcount

theorem Inv.clearPrev (h : Inv L s) (hpc : s.prepend e = .clearPrev) : Inv L (prependStep s e) := by
  have hnot : e ∉ L := h.not_mem_of_prepend (by rw [hpc]; rfl)
  have hins : s.prepend e ≠ .inserted := by simp [hpc]
  have hne : ∀ b ∈ L, b ≠ e := fun b hb heq => hnot (heq ▸ hb)
  obtain ⟨s', hs'⟩ : ∃ s', s' = prependStep s e := ⟨_, rfl⟩
  rw [← hs']
  simp only [prependStep, hpc, State.setPrepend] at hs'
  have hprepend : s'.prepend = Function.update s.prepend e .exchange := by rw [hs']
  have hprev : ∀ a, a ≠ e → s'.prev a = s.prev a := fun a ha => by
    rw [hs']
    exact Function.update_of_ne ha _ _
  refine h.prepend_move hins hprepend ?_ (fun _ => rfl) (by rw [hs']) (by rw [hs']) (by rw [hs'])
    (by rw [hs']) (fun a ha => ?_) (fun a _ => by rw [hs']) (fun he => absurd he hnot)
    (fun hstore => by cases hstore) (fun b hb hready => ?_)
    (fun r hr _ => hprev _ (h.elem_ne hins hr)) (fun r _ _ b hb => hprev b (hne b hb.mem_right))
    (fun _ => by rw [hs']) ?_
  · rw [hpc]
    rfl
  · by_cases hae : a = e
    · subst hae
      rw [hs']
      exact Function.update_self _ _ _
    · rw [hprepend, Function.update_of_ne hae] at ha
      exact (hprev a hae).trans (h.cleared a ha)
  · rw [hprev b (hne b hb)]
    refine h.prev b hb fun a ha => ?_
    have hsame : s'.prepend a = s.prepend a := by
      rw [hprepend, Function.update_of_ne (hne a ha.mem_left)]
    rw [← hsame]
    exact hready a ha
  · rw [countP_inserted_update hprepend hins (by decide), hs']
    exact h.count

theorem Inv.storeNext (h : Inv L s) (hpc : s.prepend e = .storeNext) : Inv L (prependStep s e) := by
  have hins : s.prepend e ≠ .inserted := by simp [hpc]
  have hmem : e ∈ L := h.mem_of_prepend hins (by rw [hpc]; rfl)
  have hpending : FollowedBy L e (s.prependPrev e) := h.pending e hmem (by rw [hpc]; rfl)
  obtain ⟨s', hs'⟩ : ∃ s', s' = prependStep s e := ⟨_, rfl⟩
  rw [← hs']
  simp only [prependStep, hpc, State.setPrepend] at hs'
  set pc : PrependPc := if s.prependPrev e = none then .testEnd else .storePrev with hpcNew
  have hprepend : s'.prepend = Function.update s.prepend e pc := by rw [hs']
  have hcases : s.prependPrev e = none ∧ pc = .testEnd ∨ s.prependPrev e ≠ none ∧ pc = .storePrev := by
    by_cases hnone : s.prependPrev e = none
    · exact .inl ⟨hnone, if_pos hnone⟩
    · exact .inr ⟨hnone, if_neg hnone⟩
  have hprev : s'.prev = s.prev := by rw [hs']
  refine h.prepend_move hins hprepend ?_ ?_ (by rw [hs']) (by rw [hs']) (by rw [hs']) (by rw [hs'])
    (fun a ha => ?_) (fun a ha => ?_) (fun _ _ => ?_) (fun hstore => ?_) (fun b hb hready => ?_)
    (fun r hr _ => by rw [hprev]) (fun r _ _ b hb => by rw [hprev]) (fun _ => by rw [hs']) ?_
  · rw [hpc]
    rcases hcases with ⟨_, heq⟩ | ⟨_, heq⟩ <;> rw [heq] <;> rfl
  · rw [hpc]
    exact fun hfalse => by cases hfalse
  · rw [hprev]
    refine h.cleared a ?_
    by_cases hae : a = e
    · subst hae
      rw [hprepend, Function.update_self] at ha
      rcases hcases with ⟨_, heq⟩ | ⟨_, heq⟩ <;> rw [heq] at ha <;> cases ha
    · rwa [hprepend, Function.update_of_ne hae] at ha
  · rw [hs']
    exact Function.update_of_ne ha _ _
  · have hnext : s'.next e = s.prependPrev e := by
      rw [hs']
      exact Function.update_self _ _ _
    rw [hnext]
    exact hpending
  · rcases hcases with ⟨_, heq⟩ | ⟨hne, _⟩
    · rw [heq] at hstore
      cases hstore
    · exact hne
  · rw [hprev]
    refine h.prev b hb fun a ha => ⟨?_, (hready a ha).2⟩
    have hdone := (hready a ha).1
    rw [hprepend] at hdone
    by_cases hae : a = e
    · -- `e` is linking to nothing only when it is the last element, so nothing comes behind it
      subst hae
      rw [Function.update_self] at hdone
      rcases hcases with ⟨hnone, _⟩ | ⟨_, heq⟩
      · rw [hnone] at hpending
        exact absurd hpending (ha.ne_last h.nodup)
      · rw [heq] at hdone
        cases hdone
    · rwa [Function.update_of_ne hae] at hdone
  · have hnew : pc ≠ .inserted := by
      rcases hcases with ⟨_, heq⟩ | ⟨_, heq⟩ <;> rw [heq] <;> decide
    rw [countP_inserted_update hprepend hins hnew, hs']
    exact h.count

theorem Inv.storePrev (h : Inv L s) (hpc : s.prepend e = .storePrev) : Inv L (prependStep s e) := by
  have hins : s.prepend e ≠ .inserted := by simp [hpc]
  have hmem : e ∈ L := h.mem_of_prepend hins (by rw [hpc]; rfl)
  have hpending : FollowedBy L e (s.prependPrev e) := h.pending e hmem (by rw [hpc]; rfl)
  obtain ⟨p, hp⟩ := Option.ne_none_iff_exists'.mp (h.pendingPrev e hpc)
  rw [hp] at hpending
  obtain ⟨s', hs'⟩ : ∃ s', s' = prependStep s e := ⟨_, rfl⟩
  rw [← hs']
  simp only [prependStep, hpc, hp, State.setPrepend] at hs'
  have hprepend : s'.prepend = Function.update s.prepend e .testEnd := by rw [hs']
  have hprev : ∀ a, a ≠ p → s'.prev a = s.prev a := fun a ha => by
    rw [hs']
    exact Function.update_of_ne ha _ _
  have hlinking : (s.prepend e).linking = true := by
    rw [hpc]
    rfl
  refine h.prepend_move hins hprepend (by rw [hpc]; rfl) (fun _ => rfl) (by rw [hs']) (by rw [hs'])
    (by rw [hs']) (by rw [hs']) (fun a ha => ?_) (fun a _ => by rw [hs']) (fun _ _ => ?_)
    (fun hstore => by cases hstore) (fun b hb hready => ?_) (fun r hr hlink => ?_)
    (fun r hr hbypass b hb => ?_) (fun _ => by rw [hs']) ?_
  · by_cases hae : a = e
    · subst hae
      rw [hprepend, Function.update_self] at ha
      cases ha
    · rw [hprepend, Function.update_of_ne hae] at ha
      have hap : a ≠ p := by
        rintro rfl
        exact h.not_mem_of_prepend (by rw [ha]; rfl) (Consecutive.mem_right hpending)
      exact (hprev a hap).trans (h.cleared a ha)
  · rw [hs']
    exact h.next e hmem (by rw [hpc]; decide)
  · by_cases hbp : b = p
    · subst hbp
      have hstored : s'.prev b = some e := by
        rw [hs']
        exact Function.update_self _ _ _
      rw [hstored]
      exact hpending
    · rw [hprev b hbp]
      refine h.prev b hb fun a ha => ⟨?_, (hready a ha).2⟩
      have hdone := (hready a ha).1
      have hae : a ≠ e := by
        rintro rfl
        exact hbp (ha.right_unique h.nodup hpending)
      rwa [hprepend, Function.update_of_ne hae] at hdone
  · -- the element under removal has no store to its `prev` outstanding
    refine hprev _ ?_
    rintro heq
    rw [← heq] at hpending
    exact absurd (((h.remover r hr).preceded hlink).2.2 e hpending) (by simp [hlinking])
  · refine hprev _ ?_
    rintro rfl
    exact h.elem_ne hins hr (hb.left_unique h.nodup hpending)
  · rw [countP_inserted_update hprepend hins (by decide), hs']
    exact h.count

/-- A prepend whose pointers are all stored settles `list.end`. -/
theorem Inv.settle (h : Inv L s) (hpc : s.prepend e = .testEnd ∨ s.prepend e = .storeEnd)
    (hnew : pc = .storeEnd ∨ pc = .increment)
    (hs' : s' = { s with listEnd := s'.listEnd, prepend := Function.update s.prepend e pc }) :
    Inv L s' := by
  have hins : s.prepend e ≠ .inserted := by rcases hpc with hpc | hpc <;> rw [hpc] <;> decide
  have hexchanged : (s.prepend e).exchanged = true := by rcases hpc with hpc | hpc <;> rw [hpc] <;> rfl
  have hdone : (s.prepend e).linking = false := by rcases hpc with hpc | hpc <;> rw [hpc] <;> rfl
  have hnewDone : pc.linking = false := by rcases hnew with rfl | rfl <;> rfl
  have hmem : e ∈ L := h.mem_of_prepend hins hexchanged
  have hprepend : s'.prepend = Function.update s.prepend e pc := by rw [hs']
  have hlinking := phase_update _ hprepend (hnewDone.trans hdone.symm)
  have hprev : s'.prev = s.prev := by rw [hs']
  refine h.prepend_move hins hprepend ?_ (fun _ => hnewDone) (by rw [hs']) (by rw [hs'])
    (by rw [hs']) (by rw [hs']) (fun a ha => ?_) (fun a _ => by rw [hs']) (fun _ _ => ?_)
    (fun hstore => ?_) (fun b hb hready => ?_) (fun r hr _ => by rw [hprev])
    (fun r _ _ b hb => by rw [hprev]) (fun _ => by rw [hs']) ?_
  · rw [hexchanged]
    rcases hnew with rfl | rfl <;> rfl
  · rw [hprev]
    refine h.cleared a ?_
    by_cases hae : a = e
    · subst hae
      rw [hprepend, Function.update_self] at ha
      rcases hnew with rfl | rfl <;> cases ha
    · rwa [hprepend, Function.update_of_ne hae] at ha
  · rw [hs']
    exact h.next e hmem (PrependPc.ne_of_linking_false hdone).1
  · rcases hnew with rfl | rfl <;> cases hstore
  · rw [hprev]
    refine h.prev b hb fun a ha => ?_
    rw [← hlinking]
    exact hready a ha
  · have hnotIns : pc ≠ .inserted := by rcases hnew with rfl | rfl <;> decide
    rw [countP_inserted_update hprepend hins hnotIns, hs']
    exact h.count

theorem Inv.testEnd (h : Inv L s) (hpc : s.prepend e = .testEnd) : Inv L (prependStep s e) := by
  have hnew : (if s.listEnd = none then PrependPc.storeEnd else .increment) = .storeEnd ∨
      (if s.listEnd = none then PrependPc.storeEnd else .increment) = .increment := by
    by_cases hnone : s.listEnd = none
    · exact .inl (if_pos hnone)
    · exact .inr (if_neg hnone)
  refine h.settle (.inl hpc) hnew ?_
  simp only [prependStep, hpc, State.setPrepend]

theorem Inv.storeEnd (h : Inv L s) (hpc : s.prepend e = .storeEnd) : Inv L (prependStep s e) := by
  refine h.settle (.inr hpc) (.inr rfl) ?_
  simp only [prependStep, hpc, State.setPrepend]

/-! ### The exchange -/

omit [DecidableEq α] in
/-- The holder of the mutex is not disturbed by an element in front of a list that does not start with
the element it is relinking. -/
theorem RemoverOk.cons {s' : State α} {r : Remover α} (hok : RemoverOk L s r) (hself : r.elem ≠ e)
    (hhead : r.pc.linking = true → L.head? ≠ some r.elem) (hne : ∀ a ∈ L, a ≠ e)
    (hother : ∀ a, a ≠ e → s'.prepend a = s.prepend a) (hremoved : s'.removed = s.removed)
    (hprev : s'.prev = s.prev) (hcount : s'.count = s.count) : RemoverOk (e :: L) s' r := by
  refine ⟨?_, ?_, fun hlink => ?_, fun hpass b hb => ?_, hok.node, hok.first, ?_⟩
  · rw [hother _ hself]
    exact hok.inserted
  · rw [hremoved]
    exact hok.notRemoved
  · obtain ⟨hpreceded, hsame, hdone⟩ := hok.preceded hlink
    refine ⟨hpreceded.cons (hhead hlink), by rw [hprev]; exact hsame, fun a ha => ?_⟩
    rw [consecutive_cons] at ha
    rcases ha with ⟨_, hfirst⟩ | ha
    · exact absurd hfirst (hhead hlink)
    · rw [hother a (hne a ha.mem_left)]
      exact hdone a ha
  · rw [hprev]
    rw [consecutive_cons] at hb
    rcases hb with ⟨heq, _⟩ | hb
    · exact absurd heq.symm hself
    · exact hok.bypass hpass b hb
  · rw [hcount]
    exact hok.count

/-- The exchange puts the element in front, unless the head is just being relinked. -/
theorem Inv.exchange (h : Inv L s) (hpc : s.prepend e = .exchange)
    (hfree : ∀ r, s.remover = some r → r.pc.linking = true → s.listStart ≠ some r.elem) :
    Inv (e :: L) (prependStep s e) := by
  have hnot : e ∉ L := h.not_mem_of_prepend (by rw [hpc]; rfl)
  have hins : s.prepend e ≠ .inserted := by simp [hpc]
  have hne : ∀ a ∈ L, a ≠ e := fun a ha heq => hnot (heq ▸ ha)
  obtain ⟨s', hs'⟩ : ∃ s', s' = prependStep s e := ⟨_, rfl⟩
  rw [← hs']
  simp only [prependStep, hpc, State.setPrepend] at hs'
  have hprepend : s'.prepend = Function.update s.prepend e .storeNext := by rw [hs']
  have hother : ∀ a, a ≠ e → s'.prepend a = s.prepend a := fun a ha => by
    rw [hprepend, Function.update_of_ne ha]
  have hself : s'.prepend e = .storeNext := by rw [hprepend, Function.update_self]
  have hprependPrev : ∀ a, a ≠ e → s'.prependPrev a = s.prependPrev a := fun a ha => by
    rw [hs']
    exact Function.update_of_ne ha _ _
  have hlocal : s'.prependPrev e = L.head? := by
    rw [hs', ← h.start]
    exact Function.update_self _ _ _
  have hprev : s'.prev = s.prev := by rw [hs']
  have hremover : s'.remover = s.remover := by rw [hs']
  have hremoving : ∀ phase a, s'.Removing phase a ↔ s.Removing phase a := fun phase a => by
    unfold State.Removing
    rw [hremover]
  refine ⟨List.nodup_cons.mpr ⟨hnot, h.nodup⟩, by rw [hs']; rfl, fun a => ?_, fun a ha => ?_,
    fun a ha => ?_, fun a ha hstore => ?_, fun a ha hlink => ?_, fun a ha => ?_, fun b hb hready => ?_,
    fun r hr => ?_, ?_⟩
  · rw [List.mem_cons, hremoving, show s'.removed = s.removed by rw [hs']]
    by_cases hae : a = e
    · subst hae
      have hlive : s.removed a = false := by
        by_contra hremoved
        exact hins (h.removed a (by simpa using hremoved))
      simp [hself, hlive, h.not_removing hins, PrependPc.exchanged]
    · rw [hother a hae, ← h.mem a]
      simp [hae]
  · have hinserted : s.prepend a = .inserted := h.removed a (by rwa [hs'] at ha)
    rw [hother a fun heq => hins (heq ▸ hinserted)]
    exact hinserted
  · rw [hprev]
    refine h.cleared a ?_
    rwa [← hother a fun heq => by rw [heq, hself] at ha; cases ha]
  · rcases List.mem_cons.mp ha with rfl | ha
    · exact absurd hself hstore
    · rw [hother a (hne a ha)] at hstore
      rw [hs']
      exact (h.next a ha hstore).cons
  · rcases List.mem_cons.mp ha with rfl | ha
    · rw [hlocal]
      exact followedBy_cons_self
    · rw [hother a (hne a ha)] at hlink
      rw [hprependPrev a (hne a ha)]
      exact (h.pending a ha hlink).cons
  · have hae : a ≠ e := fun heq => by
      rw [heq, hself] at ha
      cases ha
    rw [hprependPrev a hae]
    exact h.pendingPrev a (by rwa [hother a hae] at ha)
  · rw [hprev]
    rcases List.mem_cons.mp hb with rfl | hb
    · rw [h.cleared b hpc]
      rfl
    · -- the old head waits for the store of `e` to its `prev`
      have hhead : L.head? ≠ some b := fun hhead => by
        have hdone := (hready e (consecutive_cons.mpr (.inl ⟨rfl, hhead⟩))).1
        rw [hself] at hdone
        cases hdone
      refine (h.prev b hb fun a ha => ?_).cons hhead
      have hcons := hready a (consecutive_cons.mpr (.inr ha))
      rwa [hother a (hne a ha.mem_left), hremoving] at hcons
  · rw [hremover] at hr
    exact (h.remover r hr).cons (h.elem_ne hins hr) (fun hlink => h.start ▸ hfree r hr hlink) hne hother
      (by rw [hs']) hprev (by rw [hs'])
  · rw [List.countP_cons, hself, uncounted_congr hremover,
      countP_inserted_update hprepend hins (by decide), show s'.count = s.count by rw [hs'], h.count]
    simp

/-! ### The increment -/

theorem countP_inserted_succ (hnodup : L.Nodup) (hmem : e ∈ L) (hold : s.prepend e ≠ .inserted) :
    L.countP (fun a => Function.update s.prepend e .inserted a = .inserted) =
      L.countP (fun a => s.prepend a = .inserted) + 1 := by
  induction L with
  | nil => cases hmem
  | cons x L ih =>
    rw [List.nodup_cons] at hnodup
    rw [List.countP_cons, List.countP_cons]
    by_cases hxe : x = e
    · subst hxe
      have hrest : L.countP (fun a => Function.update s.prepend x .inserted a = .inserted) =
          L.countP (fun a => s.prepend a = .inserted) := by
        refine List.countP_congr fun a ha => ?_
        have hax : a ≠ x := fun heq => hnodup.1 (heq ▸ ha)
        rw [Function.update_of_ne hax]
      simp [hrest, hold]
    · have hmem : e ∈ L := (List.mem_cons.mp hmem).resolve_left (Ne.symm hxe)
      rw [ih hnodup.2 hmem, Function.update_of_ne hxe]
      omega

/-- The increment counts the element, unless a remover is about to overwrite it. -/
theorem Inv.increment (h : Inv L s) (hpc : s.prepend e = .increment)
    (hfree : ¬ s.removerAt .storeCount) : Inv L (prependStep s e) := by
  have hins : s.prepend e ≠ .inserted := by simp [hpc]
  have hmem : e ∈ L := h.mem_of_prepend hins (by rw [hpc]; rfl)
  obtain ⟨s', hs'⟩ : ∃ s', s' = prependStep s e := ⟨_, rfl⟩
  rw [← hs']
  simp only [prependStep, hpc, State.setPrepend] at hs'
  have hprepend : s'.prepend = Function.update s.prepend e .inserted := by rw [hs']
  have hlinking := phase_update PrependPc.linking hprepend (by rw [hpc]; rfl)
  have hprev : s'.prev = s.prev := by rw [hs']
  refine h.prepend_move hins hprepend (by rw [hpc]; rfl) (fun _ => rfl) (by rw [hs']) (by rw [hs'])
    (by rw [hs']) (by rw [hs']) (fun a ha => ?_) (fun a _ => by rw [hs']) (fun _ _ => ?_)
    (fun hstore => by cases hstore) (fun b hb hready => ?_) (fun r hr _ => by rw [hprev])
    (fun r _ _ b hb => by rw [hprev]) (fun hat => absurd hat hfree) ?_
  · rw [hprev]
    refine h.cleared a ?_
    by_cases hae : a = e
    · subst hae
      rw [hprepend, Function.update_self] at ha
      cases ha
    · rwa [hprepend, Function.update_of_ne hae] at ha
  · rw [hs']
    exact h.next e hmem (by rw [hpc]; decide)
  · rw [hprev]
    refine h.prev b hb fun a ha => ?_
    rw [← hlinking]
    exact hready a ha
  · have hcount : s'.count = s.count + 1 := by rw [hs']
    rw [hcount, hprepend, countP_inserted_succ h.nodup hmem hins, h.count]
    omega

end Multicore.UtList
