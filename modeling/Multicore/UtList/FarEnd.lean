import Multicore.UtList.Append

/-!
# The other end of the list

A prepend exchanges `list.start` atomically, but it tests `list.end` and stores to it later, as two
plain steps. On an empty list the element whose exchange came first is the last one, yet whichever
call tests first stores itself. The far end is right in the runs in which no call that found the list
occupied comes to the test before `list.end` is set; for appends the same holds in the mirror.
-/

namespace Multicore.UtList

variable {α : Type*} {L : List α} {e : α}

theorem getLast?_cons_of_ne_none (hL : L.getLast? ≠ none) : (e :: L).getLast? = L.getLast? := by
  cases L with
  | nil => exact absurd rfl hL
  | cons x L => exact List.getLast?_cons_cons

variable [DecidableEq α] {s s' : State α} {ev : Event α}

/-- A call whose exchange found an element tests `list.end` only when it is set. -/
def EndSet (s : State α) : Event α → Prop
  | .testEnd e => s.prependPrev e ≠ none → s.listEnd ≠ none
  | _ => True

instance (s : State α) : ∀ ev : Event α, Decidable (EndSet s ev)
  | .testEnd e => inferInstanceAs (Decidable (s.prependPrev e ≠ none → s.listEnd ≠ none))
  | .clearPrev _ | .exchange _ | .storeNext _ | .storePrev _ | .storeEnd _ | .increment _ | .enter _
  | .checkCount | .loadPrev | .storeNextPrev | .testPrev | .loadPrevNode | .storePrevNext | .storeStart
  | .loadCount | .storeCount | .exit => inferInstanceAs (Decidable True)

/-- The call has exchanged and is not past `list.end` yet. -/
def PrependPc.ending : PrependPc → Bool
  | .storeNext | .storePrev | .testEnd | .storeEnd => true
  | _ => false

/-- `list.end` is the last element, or not set as long as only the call of the last element may set
it. -/
structure EndOk (L : List α) (s : State α) : Prop where
  value : s.listEnd = none ∨ s.listEnd = L.getLast?
  last : ∀ e, (s.prepend e).ending = true → s.prependPrev e = none → L.getLast? = some e
  storing : ∀ e, s.prepend e = .storeEnd → s.prependPrev e = none
  settled : ∀ e, s.prepend e = .increment ∨ s.prepend e = .inserted → s.listEnd ≠ none

/-- A step that leaves the list, `list.end` and the locals, and moves one call on. -/
theorem EndOk.move (h : EndOk L s) {pc : PrependPc} (hprepend : s'.prepend = Function.update s.prepend e pc)
    (hend : s'.listEnd = s.listEnd) (hprev : s'.prependPrev = s.prependPrev)
    (hending : pc.ending = true → (s.prepend e).ending = true)
    (hstoring : pc = .storeEnd → s.prependPrev e = none)
    (hsettled : pc = .increment ∨ pc = .inserted → s.listEnd ≠ none) : EndOk L s' := by
  constructor
  case value => rw [hend]; exact h.value
  case last =>
    intro a ha
    rw [hprev]
    apply h.last a
    rw [hprepend] at ha
    by_cases hae : a = e
    · rw [hae, Function.update_self] at ha
      rw [hae]
      exact hending ha
    · rwa [Function.update_of_ne hae] at ha
  case storing =>
    intro a ha
    rw [hprev]
    rw [hprepend] at ha
    by_cases hae : a = e
    · rw [hae, Function.update_self] at ha
      rw [hae]
      exact hstoring ha
    · rw [Function.update_of_ne hae] at ha
      exact h.storing a ha
  case settled =>
    intro a ha
    rw [hend]
    rw [hprepend] at ha
    by_cases hae : a = e
    · rw [hae, Function.update_self] at ha
      exact hsettled ha
    · rw [Function.update_of_ne hae] at ha
      exact h.settled a ha

theorem EndOk.exchange (h : EndOk L s) (hstart : s.listStart = L.head?) (hpc : s.prepend e = .exchange) :
    EndOk (e :: L) (prependStep s e) := by
  have hlast : ∀ a, L.getLast? = some a → (e :: L).getLast? = some a := fun a ha =>
    (getLast?_cons_of_ne_none (by simp [ha])).trans ha
  have hstep : prependStep s e =
      { s with
        listStart := some e
        prependPrev := Function.update s.prependPrev e s.listStart }.setPrepend e .storeNext := by
    simp only [prependStep, hpc]
  rw [hstep]
  constructor
  case value =>
    change s.listEnd = none ∨ s.listEnd = _
    rcases h.value with hnone | hvalue
    · exact .inl hnone
    · cases hend : L.getLast? with
      | none => exact .inl (hvalue.trans hend)
      | some a => exact .inr ((hvalue.trans hend).trans (hlast a hend).symm)
  case last =>
    intro a ha hprev
    simp only [State.setPrepend] at ha hprev
    by_cases hae : a = e
    · rw [hae, Function.update_self, hstart, List.head?_eq_none_iff] at hprev
      rw [hprev, hae]
      rfl
    · rw [Function.update_of_ne hae] at ha hprev
      exact hlast a (h.last a ha hprev)
  case storing =>
    intro a ha
    simp only [State.setPrepend] at ha ⊢
    by_cases hae : a = e
    · rw [hae, Function.update_self] at ha
      cases ha
    · rw [Function.update_of_ne hae] at ha ⊢
      exact h.storing a ha
  case settled =>
    intro a ha
    simp only [State.setPrepend] at ha ⊢
    by_cases hae : a = e
    · rw [hae, Function.update_self] at ha
      rcases ha with ha | ha <;> cases ha
    · rw [Function.update_of_ne hae] at ha
      exact h.settled a ha

theorem EndOk.storeEnd (h : EndOk L s) (hpc : s.prepend e = .storeEnd) : EndOk L (prependStep s e) := by
  have hlast : L.getLast? = some e := h.last e (by rw [hpc]; rfl) (h.storing e hpc)
  have hstep : prependStep s e = { s with listEnd := some e }.setPrepend e .increment := by
    simp only [prependStep, hpc]
  have hset : EndOk L { s with listEnd := some e } :=
    ⟨.inr hlast.symm, h.last, h.storing, fun _ _ => Option.some_ne_none e⟩
  rw [hstep]
  exact hset.move rfl rfl rfl (fun h => by cases h) (by simp) fun _ => Option.some_ne_none e

theorem EndOk.step (h : EndOk L s) (hstart : s.listStart = L.head?) (hstep : Step s ev s')
    (hprepend : ev.isPrepend = true) (hset : EndSet s ev) : EndOk (relist L s ev) s' := by
  obtain ⟨henabled, rfl⟩ := hstep
  cases ev with
  | clearPrev e =>
    have hpc : s.prepend e = .clearPrev := henabled
    simp only [effect, prependStep, hpc]
    exact h.move rfl rfl rfl (fun h => by cases h) (by simp) (by simp)
  | exchange e => exact h.exchange hstart henabled
  | storeNext e =>
    have hpc : s.prepend e = .storeNext := henabled
    have hending : (s.prepend e).ending = true := by rw [hpc]; rfl
    simp only [effect, prependStep, hpc]
    by_cases hnone : s.prependPrev e = none
    · rw [if_pos hnone]
      exact h.move rfl rfl rfl (fun _ => hending) (by simp) (by simp)
    · rw [if_neg hnone]
      exact h.move rfl rfl rfl (fun _ => hending) (by simp) (by simp)
  | storePrev e =>
    have hpc : s.prepend e = .storePrev := henabled
    have hending : (s.prepend e).ending = true := by rw [hpc]; rfl
    simp only [effect, prependStep, hpc]
    cases s.prependPrev e with
    | none => exact h
    | some p => exact h.move rfl rfl rfl (fun _ => hending) (by simp) (by simp)
  | testEnd e =>
    have hpc : s.prepend e = .testEnd := henabled
    have hending : (s.prepend e).ending = true := by rw [hpc]; rfl
    simp only [effect, prependStep, hpc]
    by_cases hnone : s.listEnd = none
    · rw [if_pos hnone]
      refine h.move rfl rfl rfl (fun _ => hending) (fun _ => ?_) (by simp)
      by_contra hprev
      exact hset hprev hnone
    · rw [if_neg hnone]
      exact h.move rfl rfl rfl (fun h => by cases h) (by simp) fun _ => hnone
  | storeEnd e => exact h.storeEnd henabled
  | increment e =>
    have hpc : s.prepend e = .increment := henabled
    simp only [effect, prependStep, hpc]
    have hset : EndOk L { s with count := s.count + 1 } := ⟨h.value, h.last, h.storing, h.settled⟩
    exact hset.move rfl rfl rfl (fun h => by cases h) (by simp) fun _ => h.settled e (.inl hpc)
  | _ => cases hprepend

theorem Initial.endOk {old : List α} {new : Finset α} (hinit : Initial old new s) : EndOk old s := by
  have hpc : ∀ e, s.prepend e = .inserted ∧ e ∈ old ∨ (s.prepend e).ending = false ∧
      s.prepend e ≠ .increment ∧ s.prepend e ≠ .inserted := by
    intro e
    rw [hinit.prepend]
    split
    · exact .inl ⟨rfl, ‹_›⟩
    · split <;> exact .inr ⟨rfl, by simp, by simp⟩
  constructor
  case value => exact .inr hinit.listEnd
  case last =>
    intro e he
    rcases hpc e with ⟨hins, _⟩ | ⟨hnot, _⟩
    · rw [hins] at he
      cases he
    · exact absurd (hnot.symm.trans he) Bool.false_ne_true
  case storing =>
    intro e he
    rcases hpc e with ⟨hins, _⟩ | ⟨hnot, _⟩
    · cases he.symm.trans hins
    · rw [he] at hnot
      cases hnot
  case settled =>
    intro e he hnone
    rcases hpc e with ⟨_, hmem⟩ | ⟨_, hnot⟩
    · rw [hinit.listEnd, List.getLast?_eq_none_iff] at hnone
      rw [hnone] at hmem
      cases hmem
    · exact he.elim hnot.1 hnot.2

theorem endOk_of_run {old : List α} {new : Finset α} {s₀ : State α} {trace : List (Event α)}
    (hinit : Initial old new s₀)
    (hrun : Run (Restrict Step fun s ev => ev.isPrepend = true ∧ EndSet s ev) s₀ trace s) :
    EndOk (exchanges trace ++ old) s := by
  induction hrun with
  | nil => exact hinit.endOk
  | @cons trace s s' ev hrun hstep ih =>
    have hprepends : Run (Restrict Step fun _ ev => ev.isPrepend = true) s₀ trace s :=
      hrun.mono fun _ _ _ hstep => ⟨hstep.1, hstep.2.1⟩
    have hnext := ih.step (inv_of_prepends hinit hprepends).1.start hstep.1 hstep.2.1 hstep.2.2
    cases ev with
    | clearPrev | exchange | storeNext | storePrev | testEnd | storeEnd | increment => exact hnext
    | _ => cases hstep.2.1

/-- The chain from `list.start`, and `list.end` as its last element. -/
theorem prepends_far_end {old : List α} {new : Finset α} {s₀ : State α} {trace : List (Event α)}
    (hinit : Initial old new s₀)
    (hrun : Run (Restrict Step fun s ev => ev.isPrepend = true ∧ EndSet s ev) s₀ trace s)
    (hfinished : ∀ e ∈ new, s.prepend e = .inserted) :
    ∃ L, Visits s.next s.listStart L ∧ (∀ e, e ∈ L ↔ e ∈ old ∨ e ∈ new) ∧ s.listEnd = L.getLast? := by
  have hprepends : Run (Restrict Step fun _ ev => ev.isPrepend = true) s₀ trace s :=
    hrun.mono fun _ _ _ hstep => ⟨hstep.1, hstep.2.1⟩
  obtain ⟨hintact, hinserted, hpart⟩ := intact_of_prepends hinit hprepends hfinished
  have hend := endOk_of_run hinit hrun
  refine ⟨_, hintact.visits, hpart, ?_⟩
  rcases hend.value with hnone | hvalue
  · have hempty : exchanges trace ++ old = [] := by
      apply List.eq_nil_iff_forall_not_mem.mpr
      exact fun e he => hend.settled e (.inr (hinserted e he)) hnone
    rw [hnone, hempty]
    rfl
  · exact hvalue

/-! ### Appends -/

/-- The list `old` is linked both ways, and the calls for the elements of `new` are about to begin. -/
structure AppendInitial (old : List α) (new : Finset α) (s : AppendState α) : Prop where
  forward : Visits s.next s.listStart old
  backward : Visits s.prev s.listEnd old.reverse
  nodup : old.Nodup
  count : s.count = old.length
  fresh : ∀ e ∈ new, e ∉ old
  append : ∀ e, s.append e = if e ∈ old then .inserted else if e ∈ new then .clearNext else .absent

/-- A call whose exchange found an element tests `list.start` only when it is set. -/
def StartSet (s : AppendState α) (e : α) : Prop :=
  s.append e = .testStart → s.appendNext e ≠ none → s.listStart ≠ none

instance (s : AppendState α) (e : α) : Decidable (StartSet s e) :=
  inferInstanceAs (Decidable (_ → _ → _))

theorem AppendInitial.mirror {old : List α} {new : Finset α} {s : AppendState α}
    (hinit : AppendInitial old new s) : Initial old.reverse new s.mirror := by
  constructor
  case intact =>
    apply intact_of_neighbours (List.nodup_reverse.mpr hinit.nodup)
    · exact (visits_iff.mp hinit.backward).1
    · exact fun a ha => hinit.backward.followedBy ha
    · intro b hb
      apply precededBy_reverse.mpr
      exact hinit.forward.followedBy (List.mem_reverse.mp hb)
    · rw [List.length_reverse]
      exact hinit.count
  case listEnd => rw [List.getLast?_reverse]; exact (visits_iff.mp hinit.forward).1
  case fresh => exact fun e he hmem => hinit.fresh e he (List.mem_reverse.mp hmem)
  case prepend =>
    intro e
    change (s.append e).mirror = _
    rw [hinit.append, apply_ite AppendPc.mirror, apply_ite AppendPc.mirror]
    simp only [List.mem_reverse, AppendPc.mirror]
  case remover => rfl
  case removed => exact fun _ => rfl

omit [DecidableEq α] in
theorem mirror_startSet {s : AppendState α} (hset : StartSet s e) :
    EndSet s.mirror ((s.append e).event e) := by
  cases hpc : s.append e with
  | testStart => exact hset hpc
  | _ => trivial

theorem appends_far_end {old : List α} {new : Finset α} {s₀ s : AppendState α} {trace : List α}
    (hinit : AppendInitial old new s₀) (hrun : Run (Restrict AppendStep StartSet) s₀ trace s)
    (hfinished : ∀ e ∈ new, s.append e = .inserted) :
    ∃ L, Visits s.prev s.listEnd L ∧ (∀ e, e ∈ L ↔ e ∈ old ∨ e ∈ new) ∧ s.listStart = L.getLast? := by
  obtain ⟨trace', hrun'⟩ := hrun.simulate
    (Restrict Step fun s ev => ev.isPrepend = true ∧ EndSet s ev) AppendState.mirror
    fun _ s e _ _ hstep => .inl ⟨(s.append e).event e, (mirror_step hstep.1).1,
      (mirror_step hstep.1).2, mirror_startSet hstep.2⟩
  have hfinished' : ∀ e ∈ new, s.mirror.prepend e = .inserted := fun e he =>
    congrArg AppendPc.mirror (hfinished e he)
  obtain ⟨L, hvisits, hmem, hend⟩ := prepends_far_end hinit.mirror hrun' hfinished'
  exact ⟨L, hvisits, fun e => by rw [hmem, List.mem_reverse], hend⟩

/-! ### Both ends -/

/-- Where no call that found the list occupied comes to the test of the far end before that is set: once
all prepends have finished, `list.end` is the last element of the chain from `list.start`, and once all
appends have finished, `list.start` is the last element of the `prev` chain from `list.end`. -/
theorem far_end_right :
    (∀ {old : List α} {new : Finset α} {s₀ s : State α} {trace : List (Event α)},
      Initial old new s₀ →
      Run (Restrict Step fun s ev => ev.isPrepend = true ∧ EndSet s ev) s₀ trace s →
      (∀ e ∈ new, s.prepend e = .inserted) →
      ∃ L, Visits s.next s.listStart L ∧ (∀ e, e ∈ L ↔ e ∈ old ∨ e ∈ new) ∧
        s.listEnd = L.getLast?) ∧
    ∀ {old : List α} {new : Finset α} {s₀ s : AppendState α} {trace : List α},
      AppendInitial old new s₀ → Run (Restrict AppendStep StartSet) s₀ trace s →
      (∀ e ∈ new, s.append e = .inserted) →
      ∃ L, Visits s.prev s.listEnd L ∧ (∀ e, e ∈ L ↔ e ∈ old ∨ e ∈ new) ∧
        s.listStart = L.getLast? :=
  ⟨prepends_far_end, appends_far_end⟩

/-- The list is empty; the calls for `0` and `1` are about to begin. -/
def noneOld : State (Fin 2) :=
  { listStart := none, listEnd := none, count := 0, prev := fun _ => none, next := fun _ => none
    prepend := fun _ => .clearPrev, prependPrev := fun _ => none, remover := none
    removed := fun _ => false }

theorem initial_noneOld : Initial [] {0, 1} noneOld :=
  ⟨⟨rfl, by decide, by decide, by decide, rfl⟩, rfl, by decide, by decide, rfl, fun _ => rfl⟩

/-- The same list before two appends. -/
def noneOldAppend : AppendState (Fin 2) :=
  { listStart := none, listEnd := none, count := 0, prev := fun _ => none, next := fun _ => none
    append := fun _ => .clearNext, appendNext := fun _ => none }

theorem appendInitial_noneOldAppend : AppendInitial [] {0, 1} noneOldAppend :=
  ⟨rfl, rfl, by decide, rfl, by decide, by decide⟩

/-- The call for `0` exchanges first and sets the far end before the one for `1` tests it. -/
def firstSetsEnd : List (Event (Fin 2)) :=
  [.clearPrev 0, .clearPrev 1, .exchange 0, .exchange 1, .storeNext 1, .storePrev 1, .storeNext 0,
    .testEnd 0, .storeEnd 0, .testEnd 1, .increment 1, .increment 0]

def firstSetsStart : List (Fin 2) := [0, 1, 0, 1, 1, 1, 0, 0, 0, 1, 1, 0]

theorem far_end_right_firstSets :
    (∃ L, Visits (execute effect noneOld firstSetsEnd).next
        (execute effect noneOld firstSetsEnd).listStart L ∧
      (∀ e, e ∈ L ↔ e ∈ ([] : List (Fin 2)) ∨ e ∈ ({0, 1} : Finset (Fin 2))) ∧
      (execute effect noneOld firstSetsEnd).listEnd = L.getLast?) ∧
    ∃ L, Visits (execute appendStep noneOldAppend firstSetsStart).prev
        (execute appendStep noneOldAppend firstSetsStart).listEnd L ∧
      (∀ e, e ∈ L ↔ e ∈ ([] : List (Fin 2)) ∨ e ∈ ({0, 1} : Finset (Fin 2))) ∧
      (execute appendStep noneOldAppend firstSetsStart).listStart = L.getLast? := by
  have hprepends : Run (Restrict Step fun s ev => ev.isPrepend = true ∧ EndSet s ev) noneOld
      firstSetsEnd.reverse (execute effect noneOld firstSetsEnd) := run_execute_restrict (by decide)
  have happends : Run (Restrict AppendStep StartSet) noneOldAppend firstSetsStart.reverse
      (execute appendStep noneOldAppend firstSetsStart) := run_execute_restrict (by decide)
  exact ⟨far_end_right.1 initial_noneOld hprepends (by decide),
    far_end_right.2 appendInitial_noneOldAppend happends (by decide)⟩

/-- The call for `0` exchanges first, but the one for `1` tests the far end first and stores itself. -/
def secondSetsEnd : List (Event (Fin 2)) :=
  [.clearPrev 0, .clearPrev 1, .exchange 0, .exchange 1, .storeNext 1, .storePrev 1, .testEnd 1,
    .storeEnd 1, .increment 1, .storeNext 0, .testEnd 0, .increment 0]

def secondSetsStart : List (Fin 2) := [0, 1, 0, 1, 1, 1, 1, 1, 1, 0, 0, 0]

/-- The last element of the chain is then `0`, while the far end is `1`; likewise for appends. -/
theorem secondSets_far_end_wrong :
    (Initial [] {0, 1} noneOld ∧
      Run (Restrict Step fun _ ev => ev.isPrepend = true) noneOld secondSetsEnd.reverse
        (execute effect noneOld secondSetsEnd) ∧
      (∀ e, (execute effect noneOld secondSetsEnd).prepend e = .inserted) ∧
      Visits (execute effect noneOld secondSetsEnd).next
        (execute effect noneOld secondSetsEnd).listStart [1, 0] ∧
      (execute effect noneOld secondSetsEnd).listEnd = some 1) ∧
    AppendInitial [] {0, 1} noneOldAppend ∧
      Run AppendStep noneOldAppend secondSetsStart.reverse
        (execute appendStep noneOldAppend secondSetsStart) ∧
      (∀ e, (execute appendStep noneOldAppend secondSetsStart).append e = .inserted) ∧
      Visits (execute appendStep noneOldAppend secondSetsStart).prev
        (execute appendStep noneOldAppend secondSetsStart).listEnd [1, 0] ∧
      (execute appendStep noneOldAppend secondSetsStart).listStart = some 1 := by
  exact ⟨⟨initial_noneOld, run_execute_restrict (by decide), by decide, by decide, by decide⟩,
    appendInitial_noneOldAppend, run_execute (by decide), by decide, by decide, by decide⟩

end Multicore.UtList
