import Multicore.UtList.Intact

/-!
# Walking the list while elements are put in front

A reader of the list follows `next` from `list.start`. Between the exchange of a prepend and its store
of `next` the new head points wherever its `next` field happened to point, so the walk may miss the
whole list. The chain is whole at all times in the runs in which `next` already holds the old head when
the exchange makes the element visible.
-/

namespace Multicore.UtList

variable {α : Type*} {L : List α} {s s' : State α} {ev : Event α}

/-- A walk along `next` from `list.start` comes to `x`. -/
def Reaches (s : State α) (x : α) : Prop :=
  ∃ first, s.listStart = some first ∧ Relation.ReflTransGen (fun a b => s.next a = some b) first x

/-- Where `next` leads from every element to the one behind it, a walk comes to all of them and to
nothing else. -/
theorem reaches_iff (hstart : s.listStart = L.head?) (hnext : ∀ a ∈ L, FollowedBy L a (s.next a))
    (hnodup : L.Nodup) (x : α) : Reaches s x ↔ x ∈ L := by
  constructor
  · rintro ⟨first, hfirst, hwalk⟩
    induction hwalk with
    | refl => exact List.mem_of_mem_head? (hstart.symm.trans hfirst)
    | tail _ hlink ih =>
      have hfollowed := hnext _ ih
      rw [hlink] at hfollowed
      exact hfollowed.mem_right
  · intro hx
    obtain ⟨first, hfirst⟩ : ∃ first, L.head? = some first := by
      cases L with
      | nil => cases hx
      | cons first L => exact ⟨first, rfl⟩
    refine ⟨first, hstart.trans hfirst, ?_⟩
    have hlink : ∀ a b, Consecutive L a b → True → s.next a = some b := fun a b hab _ =>
      (hnext a hab.mem_left).unique hnodup hab
    exact (reflTransGen_of_consecutive hfirst hlink (fun _ _ _ _ => trivial) hx trivial).1

variable [DecidableEq α]

/-- At the exchange the `next` field of the element already holds the head it is put in front of. -/
def NextReady (s : State α) : Event α → Prop
  | .exchange e => s.next e = s.listStart
  | _ => True

instance (s : State α) : ∀ ev : Event α, Decidable (NextReady s ev)
  | .exchange e => inferInstanceAs (Decidable (s.next e = s.listStart))
  | .clearPrev _ | .storeNext _ | .storePrev _ | .testEnd _ | .storeEnd _ | .increment _ | .enter _
  | .checkCount | .loadPrev | .storeNextPrev | .testPrev | .loadPrevNode | .storePrevNext | .storeStart
  | .loadCount | .storeCount | .exit => inferInstanceAs (Decidable True)

/-- Until its store of `next`, an element in the list points to the old head anyway. -/
def Ready (s : State α) : Prop := ∀ a, s.prepend a = .storeNext → s.next a = s.prependPrev a

/-- A step that leaves `next` and the local `prev` of the other calls, and after which its own call has
nothing to store to `next`. -/
theorem Ready.move (h : Ready s) {e : α} {pc : PrependPc}
    (hprepend : s'.prepend = Function.update s.prepend e pc) (hpc : pc ≠ .storeNext)
    (hnext : ∀ a, a ≠ e → s'.next a = s.next a) (hprev : s'.prependPrev = s.prependPrev) :
    Ready s' := by
  intro a ha
  rw [hprepend] at ha
  by_cases hae : a = e
  · rw [hae, Function.update_self] at ha
    exact absurd ha hpc
  · rw [Function.update_of_ne hae] at ha
    rw [hnext a hae, hprev]
    exact h a ha

theorem Ready.exchange (h : Ready s) {e : α} (hpc : s.prepend e = .exchange)
    (hready : s.next e = s.listStart) : Ready (prependStep s e) := by
  intro a ha
  simp only [prependStep, hpc, State.setPrepend] at ha ⊢
  by_cases hae : a = e
  · rw [hae, Function.update_self]
    exact hready
  · rw [Function.update_of_ne hae] at ha ⊢
    exact h a ha

theorem Ready.step (h : Ready s) (hstep : Step s ev s') (hprepend : ev.isPrepend = true)
    (hready : NextReady s ev) : Ready s' := by
  obtain ⟨henabled, rfl⟩ := hstep
  cases ev with
  | clearPrev e =>
    have hpc : s.prepend e = .clearPrev := henabled
    simp only [effect, prependStep, hpc]
    exact h.move rfl (by simp) (fun _ _ => rfl) rfl
  | exchange e => exact h.exchange henabled hready
  | storeNext e =>
    have hpc : s.prepend e = .storeNext := henabled
    simp only [effect, prependStep, hpc]
    refine h.move rfl ?_ (fun a hae => Function.update_of_ne hae _ _) rfl
    split <;> simp
  | storePrev e =>
    have hpc : s.prepend e = .storePrev := henabled
    simp only [effect, prependStep, hpc]
    cases s.prependPrev e with
    | none => exact h
    | some p => exact h.move rfl (by simp) (fun _ _ => rfl) rfl
  | testEnd e =>
    have hpc : s.prepend e = .testEnd := henabled
    simp only [effect, prependStep, hpc]
    refine h.move rfl ?_ (fun _ _ => rfl) rfl
    split <;> simp
  | storeEnd e =>
    have hpc : s.prepend e = .storeEnd := henabled
    simp only [effect, prependStep, hpc]
    exact h.move rfl (by simp) (fun _ _ => rfl) rfl
  | increment e =>
    have hpc : s.prepend e = .increment := henabled
    simp only [effect, prependStep, hpc]
    exact h.move rfl (by simp) (fun _ _ => rfl) rfl
  | _ => cases hprepend

theorem Initial.ready {old : List α} {new : Finset α} (hinit : Initial old new s) : Ready s := by
  intro a ha
  rw [hinit.prepend] at ha
  split at ha
  · cases ha
  · split at ha <;> cases ha

/-- In every state of every run of prepends whose exchanges all find `next` ready, a walk from
`list.start` comes to every old element and to every element whose call has returned, and to nothing
but old elements and those already exchanged. -/
theorem walk_reaches_list {old : List α} {new : Finset α} {s₀ : State α} {trace : List (Event α)}
    (hinit : Initial old new s₀)
    (hrun : Run (Restrict Step fun s ev => ev.isPrepend = true ∧ NextReady s ev) s₀ trace s) :
    (∀ x ∈ old, Reaches s x) ∧ (∀ x ∈ new, s.prepend x = .inserted → Reaches s x) ∧
      ∀ x, Reaches s x → x ∈ old ∨ x ∈ exchanges trace := by
  have hprepends : Run (Restrict Step fun _ ev => ev.isPrepend = true) s₀ trace s :=
    hrun.mono fun _ _ _ hstep => ⟨hstep.1, hstep.2.1⟩
  obtain ⟨h, hremover, hremoved⟩ := inv_of_prepends hinit hprepends
  have hready : Ready s := hrun.invariant (P := fun _ s => Ready s) hinit.ready
    fun _ _ _ _ _ ih hstep => ih.step hstep.1 hstep.2.1 hstep.2.2
  have hnext : ∀ a ∈ exchanges trace ++ old, FollowedBy (exchanges trace ++ old) a (s.next a) := by
    intro a ha
    by_cases hpc : s.prepend a = .storeNext
    · rw [hready a hpc]
      exact h.pending a ha (by rw [hpc]; rfl)
    · exact h.next a ha hpc
  have hreaches := reaches_iff h.start hnext h.nodup
  refine ⟨fun x hx => ?_, fun x _ hx => ?_, fun x hx => ?_⟩
  · exact (hreaches x).mpr (List.mem_append_right _ hx)
  · rw [hreaches, h.mem, hx]
    exact ⟨rfl, hremoved x, State.removing_none hremover⟩
  · exact (List.mem_append.mp ((hreaches x).mp hx)).symm

/-- The list holds `0`; the `next` fields of `1` and `2` hold what their exchanges will find. -/
def readyOld : State (Fin 3) := { oneOld with next := ![none, some 0, some 1] }

/-- The call for `1` returns, then the one for `2` exchanges. -/
def secondExchange : List (Event (Fin 3)) :=
  [.clearPrev 1, .exchange 1, .storeNext 1, .storePrev 1, .testEnd 1, .increment 1, .clearPrev 2,
    .exchange 2]

theorem walk_reaches_list_secondExchange :
    Reaches (execute effect readyOld secondExchange) 0 ∧
      Reaches (execute effect readyOld secondExchange) 1 := by
  have hinit : Initial [0] {1, 2} readyOld :=
    ⟨⟨⟨rfl, rfl⟩, by decide, by decide, by decide, rfl⟩, rfl, by decide, by decide, rfl, fun _ => rfl⟩
  have hrun : Run (Restrict Step fun s ev => ev.isPrepend = true ∧ NextReady s ev) readyOld
      secondExchange.reverse (execute effect readyOld secondExchange) :=
    run_execute_restrict (by decide)
  obtain ⟨hold, hreturned, _⟩ := walk_reaches_list hinit hrun
  exact ⟨hold 0 (by decide), hreturned 1 (by decide) (by decide)⟩

/-- The call for `1` has made its exchange. -/
def exchangeOnly : List (Event (Fin 3)) := [.clearPrev 1, .exchange 1]

/-- The walk then ends at `1`, whose `next` field is not stored yet, and misses the old element. -/
theorem exchangeOnly_hides_list :
    Initial [0] {1, 2} oneOld ∧
      Run Step oneOld exchangeOnly.reverse (execute effect oneOld exchangeOnly) ∧
      (∀ ev ∈ exchangeOnly, ev.isPrepend = true) ∧
      ¬ Reaches (execute effect oneOld exchangeOnly) 0 := by
  refine ⟨initial_oneOld, run_execute (by decide), by decide, ?_⟩
  rintro ⟨first, hfirst, hwalk⟩
  have hstart : some 1 = some first := hfirst
  obtain rfl := Option.some.inj hstart
  have hend : (execute effect oneOld exchangeOnly).next 1 = none := by decide
  rcases hwalk.cases_head with heq | ⟨b, hlink, _⟩
  · exact absurd heq (by decide)
  · exact absurd (hend.symm.trans hlink) (by simp)

end Multicore.UtList
