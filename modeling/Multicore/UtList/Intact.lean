import Mathlib.Data.Finset.Card
import Mathlib.Data.Fintype.Basic
import Mathlib.Data.Fin.VecNotation
import Multicore.UtList.Prepend
import Multicore.UtList.Remove

/-!
# The list after all calls have finished

Prepends alone always leave the list intact, in whatever order their steps interleave. Prepends and
removes together do not: a remove that works from a `prev` field some prepend has yet to store, or
whose head is replaced under it, loses an element, and an increment between the halves of a decrement
is lost. In every run that avoids these three places the list comes out intact.
-/

namespace Multicore.UtList

variable {α : Type*} {L : List α} {s s' : State α} {ev : Event α}

/-! ### Intact lists -/

/-- The pointers and the count spell out the list `L`. -/
structure Intact (s : State α) (L : List α) : Prop where
  visits : Visits s.next s.listStart L
  nodup : L.Nodup
  inverse : ∀ a ∈ L, ∀ b ∈ L, s.next a = some b ↔ s.prev b = some a
  first : ∀ a ∈ L, s.prev a = none ↔ s.listStart = some a
  count : s.count = L.length

theorem Intact.precededBy (h : Intact s L) {b : α} (hb : b ∈ L) : PrecededBy L b (s.prev b) := by
  obtain ⟨hstart, hlink, _⟩ := visits_iff.mp h.visits
  rcases head_or_consecutive hb with hhead | ⟨a, hab⟩
  · rw [(h.first b hb).mpr (hstart.trans hhead)]
    exact hhead
  · rw [(h.inverse a hab.mem_left b hb).mp (hlink a b hab)]
    exact hab

/-- When every element's fields hold its neighbours, the list is intact. -/
theorem intact_of_neighbours (hnodup : L.Nodup) (hstart : s.listStart = L.head?)
    (hnext : ∀ a ∈ L, FollowedBy L a (s.next a)) (hprev : ∀ b ∈ L, PrecededBy L b (s.prev b))
    (hcount : s.count = L.length) : Intact s L := by
  have hlink : ∀ a b, Consecutive L a b → s.next a = some b := fun a b hab =>
    (hnext a hab.mem_left).unique hnodup hab
  refine ⟨visits_iff.mpr ⟨hstart, hlink, fun a ha => ?_⟩, hnodup, fun a ha b hb => ⟨fun h => ?_,
    fun h => ?_⟩, fun a ha => ⟨fun h => ?_, fun h => ?_⟩, hcount⟩
  · exact (hnext a (List.mem_of_getLast? ha)).unique hnodup ha
  · have hab := hnext a ha
    rw [h] at hab
    exact (hprev b hb).unique hnodup hab
  · have hab := hprev b hb
    rw [h] at hab
    exact (hnext a ha).unique hnodup hab
  · have hhead := hprev a ha
    rw [h] at hhead
    exact hstart.trans hhead
  · exact (hprev a ha).unique hnodup (hstart.symm.trans h)

/-- When the calls are over, the list a run keeps is all there is. -/
theorem Inv.intact (h : Inv L s) (hfinished : ∀ e ∈ L, s.prepend e = .inserted)
    (hremover : s.remover = none) : Intact s L := by
  refine intact_of_neighbours h.nodup h.start (fun a ha => h.next a ha ?_)
    (fun b hb => h.prev b hb fun a ha => ⟨?_, State.removing_none hremover⟩) ?_
  · rw [hfinished a ha]
    decide
  · rw [hfinished a ha.mem_left]
    rfl
  · have hall : L.countP (fun e => s.prepend e = .inserted) = L.length :=
      List.countP_eq_length.mpr fun e he => by simpa using hfinished e he
    rw [h.count, hall]
    simp [State.uncounted, hremover]

/-! ### Where runs start and end -/

variable [DecidableEq α]

/-- The list `old` is intact, the calls for the elements of `new` are about to begin and no remove is
under way. -/
structure Initial (old : List α) (new : Finset α) (s : State α) : Prop where
  intact : Intact s old
  listEnd : s.listEnd = old.getLast?
  fresh : ∀ e ∈ new, e ∉ old
  prepend : ∀ e, s.prepend e =
    if e ∈ old then .inserted else if e ∈ new then .clearPrev else .absent
  remover : s.remover = none
  removed : ∀ e, s.removed e = false

/-- All prepends have returned and nobody holds the mutex. -/
def Finished (new : Finset α) (s : State α) : Prop :=
  (∀ e ∈ new, s.prepend e = .inserted) ∧ s.remover = none

instance (new : Finset α) (s : State α) : Decidable (Finished new s) :=
  inferInstanceAs (Decidable (_ ∧ _))

theorem Initial.inv {old : List α} {new : Finset α} (h : Initial old new s) : Inv old s := by
  have hexchanged : ∀ e, (s.prepend e).exchanged = true ↔ e ∈ old := by
    intro e
    rw [h.prepend]
    split
    · simp [PrependPc.exchanged, *]
    · split <;> simp [PrependPc.exchanged, *]
  have hinserted : ∀ e, s.prepend e = .inserted ↔ e ∈ old := by
    intro e
    rw [h.prepend]
    split
    · simp [*]
    · split <;> simp [*]
  have hpc : ∀ e, s.prepend e ≠ .exchange ∧ (s.prepend e).linking = false := by
    intro e
    rw [h.prepend]
    split
    · exact ⟨by decide, rfl⟩
    · split <;> exact ⟨by decide, rfl⟩
  refine ⟨h.intact.nodup, (visits_iff.mp h.intact.visits).1, fun e => ?_, fun e he => ?_,
    fun e he => absurd he (hpc e).1, fun a ha _ => h.intact.visits.followedBy ha,
    fun a _ hlink => absurd ((hpc a).2.symm.trans hlink) Bool.false_ne_true,
    fun a ha => absurd ha (PrependPc.ne_of_linking_false (hpc a).2).2,
    fun b hb _ => h.intact.precededBy hb, fun r hr => ?_, ?_⟩
  · simp [hexchanged, h.removed, State.removing_none h.remover]
  · rw [h.removed] at he
    cases he
  · rw [h.remover] at hr
    cases hr
  · have hall : old.countP (fun e => s.prepend e = .inserted) = old.length :=
      List.countP_eq_length.mpr fun e he => by simpa using (hinserted e).mpr he
    rw [h.intact.count, hall]
    simp [State.uncounted, h.remover]

/-! ### One step -/

/-- The three places where a prepend and a remove get in each other's way: an exchange while the head
is being relinked, a read of `prev` while a prepend owes its store to it, and an increment between
the two halves of a decrement. -/
def Careful (s : State α) : Event α → Prop
  | .exchange _ => ∀ r ∈ s.remover, r.pc.linking = true → s.listStart ≠ some r.elem
  | .loadPrev => ∀ r ∈ s.remover, ∀ e, (s.prepend e).linking = true → s.prependPrev e ≠ some r.elem
  | .increment _ => ¬ s.removerAt .storeCount
  | _ => True

instance [Fintype α] (s : State α) : ∀ ev : Event α, Decidable (Careful s ev)
  | .exchange _ => inferInstanceAs (Decidable (∀ r ∈ s.remover, _ → _))
  | .loadPrev => inferInstanceAs (Decidable (∀ r ∈ s.remover, ∀ _, _ → _))
  | .increment _ => inferInstanceAs (Decidable (¬ s.removerAt .storeCount))
  | .clearPrev _ | .storeNext _ | .storePrev _ | .testEnd _ | .storeEnd _ | .enter _ | .checkCount
  | .storeNextPrev | .testPrev | .loadPrevNode | .storePrevNext | .storeStart | .loadCount
  | .storeCount | .exit => inferInstanceAs (Decidable True)

/-- The list after the event: the exchange puts its element in front, the second relinking store takes
one out. -/
def relist (L : List α) (s : State α) : Event α → List α
  | .exchange e => e :: L
  | .storePrevNext | .storeStart =>
    match s.remover with
    | some r => L.erase r.elem
    | none => L
  | _ => L

theorem Inv.step (h : Inv L s) (hstep : Step s ev s') (hcareful : Careful s ev) :
    Inv (relist L s ev) s' := by
  obtain ⟨henabled, rfl⟩ := hstep
  cases ev with
  | clearPrev e => exact h.clearPrev henabled
  | exchange e => exact h.exchange henabled hcareful
  | storeNext e => exact h.storeNext henabled
  | storePrev e => exact h.storePrev henabled
  | testEnd e => exact h.testEnd henabled
  | storeEnd e => exact h.storeEnd henabled
  | increment e => exact h.increment henabled hcareful
  | enter x => exact h.enter henabled.1 henabled.2.1 henabled.2.2
  | checkCount =>
    obtain ⟨r, hr, hpc⟩ := exists_remover henabled.1
    simp only [effect, removerStep, hr]
    exact h.checkCount hr hpc
  | loadPrev =>
    obtain ⟨r, hr, hpc⟩ := exists_remover henabled
    simp only [effect, removerStep, hr]
    exact h.loadPrev hr hpc (hcareful r hr)
  | storeNextPrev =>
    obtain ⟨r, hr, hpc⟩ := exists_remover henabled
    simp only [effect, removerStep, hr]
    exact h.storeNextPrev hr hpc
  | testPrev =>
    obtain ⟨r, hr, hpc⟩ := exists_remover henabled
    simp only [effect, removerStep, hr]
    exact h.testPrev hr hpc
  | loadPrevNode =>
    obtain ⟨r, hr, hpc⟩ := exists_remover henabled.1
    simp only [effect, removerStep, hr]
    exact h.loadPrevNode hr hpc
  | storePrevNext =>
    obtain ⟨r, hr, hpc⟩ := exists_remover henabled
    simp only [effect, removerStep, relist, hr]
    exact h.storePrevNext hr hpc
  | storeStart =>
    obtain ⟨r, hr, hpc⟩ := exists_remover henabled
    simp only [effect, removerStep, relist, hr]
    exact h.storeStart hr hpc
  | loadCount =>
    obtain ⟨r, hr, hpc⟩ := exists_remover henabled
    simp only [effect, removerStep, hr]
    exact h.loadCount hr hpc
  | storeCount =>
    obtain ⟨r, hr, hpc⟩ := exists_remover henabled
    simp only [effect, removerStep, hr]
    exact h.storeCount hr hpc
  | exit =>
    obtain ⟨r, hr, hpc⟩ := exists_remover henabled
    simp only [effect, removerStep, hr]
    exact h.exit hr hpc

/-! ### Runs -/

/-- The elements exchanged during a run, the latest first. -/
def exchanges : List (Event α) → List α
  | [] => []
  | .exchange e :: trace => e :: exchanges trace
  | _ :: trace => exchanges trace

theorem prepend_removerStep : (removerStep s).prepend = s.prepend := by
  unfold removerStep
  split
  · rfl
  · unfold removeStep
    split <;> first | rfl | (split <;> rfl)

/-- An event moves at most one prepend, and only one that is under way. -/
theorem prepend_effect (henabled : Enabled s ev) :
    (effect s ev).prepend = s.prepend ∧ (∀ e, ev ≠ .exchange e) ∨
      ∃ e pc, (effect s ev).prepend = Function.update s.prepend e pc ∧ s.prepend e ≠ .absent ∧
        s.prepend e ≠ .inserted ∧
        (ev = .exchange e ∧ pc.exchanged = true ∨
          (∀ x, ev ≠ .exchange x) ∧ pc.exchanged = (s.prepend e).exchanged) := by
  cases ev with
  | clearPrev e =>
    have hpc : s.prepend e = .clearPrev := henabled
    refine .inr ⟨e, .exchange, ?_, by simp [hpc], by simp [hpc], .inr ⟨by simp, by rw [hpc]; rfl⟩⟩
    simp only [effect, prependStep, hpc, State.setPrepend]
  | exchange e =>
    have hpc : s.prepend e = .exchange := henabled
    refine .inr ⟨e, .storeNext, ?_, by simp [hpc], by simp [hpc], .inl ⟨rfl, rfl⟩⟩
    simp only [effect, prependStep, hpc, State.setPrepend]
  | storeNext e =>
    have hpc : s.prepend e = .storeNext := henabled
    refine .inr ⟨e, if s.prependPrev e = none then .testEnd else .storePrev, ?_, by simp [hpc],
      by simp [hpc], .inr ⟨by simp, by rw [hpc]; split <;> rfl⟩⟩
    simp only [effect, prependStep, hpc, State.setPrepend]
  | storePrev e =>
    have hpc : s.prepend e = .storePrev := henabled
    cases hp : s.prependPrev e with
    | none => exact .inl ⟨by simp only [effect, prependStep, hpc, hp], by simp⟩
    | some p =>
      refine .inr ⟨e, .testEnd, ?_, by simp [hpc], by simp [hpc], .inr ⟨by simp, by rw [hpc]; rfl⟩⟩
      simp only [effect, prependStep, hpc, hp, State.setPrepend]
  | testEnd e =>
    have hpc : s.prepend e = .testEnd := henabled
    refine .inr ⟨e, if s.listEnd = none then .storeEnd else .increment, ?_, by simp [hpc],
      by simp [hpc], .inr ⟨by simp, by rw [hpc]; split <;> rfl⟩⟩
    simp only [effect, prependStep, hpc, State.setPrepend]
  | storeEnd e =>
    have hpc : s.prepend e = .storeEnd := henabled
    refine .inr ⟨e, .increment, ?_, by simp [hpc], by simp [hpc], .inr ⟨by simp, by rw [hpc]; rfl⟩⟩
    simp only [effect, prependStep, hpc, State.setPrepend]
  | increment e =>
    have hpc : s.prepend e = .increment := henabled
    refine .inr ⟨e, .inserted, ?_, by simp [hpc], by simp [hpc], .inr ⟨by simp, by rw [hpc]; rfl⟩⟩
    simp only [effect, prependStep, hpc, State.setPrepend]
  | enter x => exact .inl ⟨rfl, by simp⟩
  | _ => exact .inl ⟨prepend_removerStep, by simp⟩

/-- An element counts as exchanged from its exchange on. -/
theorem exchanged_step (hstep : Step s ev s') (x : α) : (s'.prepend x).exchanged = true ↔
    ev = .exchange x ∨ (s.prepend x).exchanged = true := by
  obtain ⟨henabled, rfl⟩ := hstep
  rcases prepend_effect henabled with ⟨hsame, hnot⟩ | ⟨e, pc, hupdate, _, _, hcases⟩
  · rw [hsame]
    simp [hnot]
  · rw [hupdate]
    by_cases hx : x = e
    · subst hx
      rw [Function.update_self]
      rcases hcases with ⟨rfl, hpc⟩ | ⟨hnot, hpc⟩ <;> rw [hpc]
      · simp
      · simp [hnot]
    · rw [Function.update_of_ne hx]
      rcases hcases with ⟨rfl, _⟩ | ⟨hnot, _⟩
      · simp [Ne.symm hx]
      · simp [hnot]

/-- An element that takes no part stays out, and one that is inserted stays so. -/
theorem prepend_settled (hstep : Step s ev s') {x : α}
    (hx : s.prepend x = .absent ∨ s.prepend x = .inserted) : s'.prepend x = s.prepend x := by
  obtain ⟨henabled, rfl⟩ := hstep
  rcases prepend_effect henabled with ⟨hsame, _⟩ | ⟨e, pc, hupdate, habsent, hinserted, _⟩
  · rw [hsame]
  · rw [hupdate]
    refine Function.update_of_ne ?_ _ _
    rintro rfl
    exact hx.elim habsent hinserted

/-- A run keeps a list that the pointers are on their way to. It consists of exchanged elements and
old ones, the latest exchange in front. -/
theorem inv_of_run {old : List α} {new : Finset α} {s₀ : State α} {trace : List (Event α)}
    (hinit : Initial old new s₀) (hrun : Run (Restrict Step Careful) s₀ trace s) :
    (∃ L, Inv L s ∧ L.Sublist (exchanges trace ++ old)) ∧ (exchanges trace ++ old).Nodup ∧
      ∀ e, e ∈ exchanges trace ++ old ↔ (s.prepend e).exchanged = true := by
  induction hrun with
  | nil =>
    have h := hinit.inv
    refine ⟨⟨old, h, List.Sublist.refl _⟩, h.nodup, fun e => ?_⟩
    rw [show exchanges [] ++ old = old from rfl, h.mem e]
    simp [hinit.removed, State.removing_none hinit.remover]
  | @cons trace s s' ev hrun hstep ih =>
    obtain ⟨⟨L, h, hsub⟩, hnodup, hmem⟩ := ih
    have hnext := h.step hstep.1 hstep.2
    have hexchanged := exchanged_step hstep.1
    cases ev with
    | exchange e =>
      have hnot : e ∉ exchanges trace ++ old := fun he => by
        have := (hmem e).mp he
        rw [show s.prepend e = .exchange from hstep.1.1] at this
        cases this
      refine ⟨⟨_, hnext, hsub.cons_cons e⟩, List.nodup_cons.mpr ⟨hnot, hnodup⟩, fun x => ?_⟩
      rw [hexchanged, ← hmem, exchanges, List.cons_append, List.mem_cons]
      simp [eq_comm]
    | storePrevNext =>
      obtain ⟨r, hr, _⟩ := exists_remover hstep.1.1
      simp only [relist, hr] at hnext
      refine ⟨⟨_, hnext, List.erase_sublist.trans hsub⟩, hnodup, fun x => ?_⟩
      rw [hexchanged]
      exact (hmem x).trans (by simp)
    | storeStart =>
      obtain ⟨r, hr, _⟩ := exists_remover hstep.1.1
      simp only [relist, hr] at hnext
      refine ⟨⟨_, hnext, List.erase_sublist.trans hsub⟩, hnodup, fun x => ?_⟩
      rw [hexchanged]
      exact (hmem x).trans (by simp)
    | _ =>
      refine ⟨⟨_, hnext, hsub⟩, hnodup, fun x => ?_⟩
      rw [hexchanged]
      exact (hmem x).trans (by simp)

theorem prepend_settled_of_run {step : State α → Event α → State α → Prop} {s₀ : State α}
    {trace : List (Event α)} (hle : ∀ s ev s', step s ev s' → Step s ev s')
    (hrun : Run step s₀ trace s) {x : α} (hx : s₀.prepend x = .absent ∨ s₀.prepend x = .inserted) :
    s.prepend x = s₀.prepend x := by
  induction hrun with
  | nil => rfl
  | cons _ hstep ih =>
    rw [prepend_settled (hle _ _ _ hstep) (by rwa [ih]), ih]

/-- When the calls of a careful run have finished, the list the run keeps is made of all elements but
the removed ones, and all of them are inserted. -/
theorem inv_of_finished_run {old : List α} {new : Finset α} {s₀ : State α} {trace : List (Event α)}
    (hinit : Initial old new s₀) (hrun : Run (Restrict Step Careful) s₀ trace s)
    (hfinished : Finished new s) :
    Inv ((exchanges trace ++ old).filter fun e => !s.removed e) s ∧
      (∀ e ∈ exchanges trace ++ old, s.prepend e = .inserted) ∧
      ∀ e, e ∈ exchanges trace ++ old ↔ e ∈ old ∨ e ∈ new := by
  obtain ⟨⟨L, h, hsub⟩, hnodup, hexchanged⟩ := inv_of_run hinit hrun
  have hsettled := fun x => prepend_settled_of_run (x := x) (fun _ _ _ hstep => hstep.1) hrun
  have hold : ∀ e ∈ old, s.prepend e = .inserted := fun e he => by
    have hstart : s₀.prepend e = .inserted := by rw [hinit.prepend, if_pos he]
    rw [hsettled e (.inr hstart), hstart]
  have hpart : ∀ e, e ∈ exchanges trace ++ old ↔ e ∈ old ∨ e ∈ new := by
    intro e
    rw [hexchanged]
    constructor
    · intro he
      by_contra hnot
      rw [not_or] at hnot
      have hstart : s₀.prepend e = .absent := by rw [hinit.prepend, if_neg hnot.1, if_neg hnot.2]
      rw [hsettled e (.inl hstart), hstart] at he
      cases he
    · rintro (he | he)
      · rw [hold e he]
        rfl
      · rw [hfinished.1 e he]
        rfl
  have hinserted : ∀ e ∈ exchanges trace ++ old, s.prepend e = .inserted := fun e he =>
    ((hpart e).mp he).elim (hold e) (hfinished.1 e)
  have hfilter : L = (exchanges trace ++ old).filter fun e => !s.removed e := by
    refine eq_filter_of_sublist hsub hnodup fun e he => ?_
    rw [h.mem e, hinserted e he]
    simp [PrependPc.exchanged, State.removing_none hfinished.2]
  rw [← hfilter]
  exact ⟨h, hinserted, hpart⟩

/-! ### Prepends alone -/

def Event.isPrepend : Event α → Bool
  | .clearPrev _ | .exchange _ | .storeNext _ | .storePrev _ | .testEnd _ | .storeEnd _
  | .increment _ => true
  | _ => false

theorem prependStep_remover {e : α} :
    (prependStep s e).remover = s.remover ∧ (prependStep s e).removed = s.removed := by
  unfold prependStep
  split <;> first | exact ⟨rfl, rfl⟩ | (split <;> exact ⟨rfl, rfl⟩)

/-- A run of prepends meets no remove and removes nothing. -/
theorem careful_of_prepends {s₀ : State α} {trace : List (Event α)} (hremover : s₀.remover = none)
    (hrun : Run (Restrict Step fun _ ev => ev.isPrepend = true) s₀ trace s) :
    Run (Restrict Step Careful) s₀ trace s ∧ s.remover = none ∧ s.removed = s₀.removed := by
  induction hrun with
  | nil => exact ⟨.nil, hremover, rfl⟩
  | @cons trace s s' ev _ hstep ih =>
    obtain ⟨hrun, hnone, hremoved⟩ := ih
    obtain ⟨hstep, hprepend⟩ := hstep
    have hcareful : Careful s ev := by
      cases ev <;> simp [Careful, hnone, State.removerAt]
    have hkeep : s'.remover = s.remover ∧ s'.removed = s.removed := by
      rw [hstep.2]
      cases ev <;> first | exact prependStep_remover | cases hprepend
    exact ⟨.cons hrun ⟨hstep, hcareful⟩, hkeep.1.trans hnone, hkeep.2.trans hremoved⟩

/-- In a run of prepends the list the pointers are on their way to holds all exchanged elements. -/
theorem inv_of_prepends {old : List α} {new : Finset α} {s₀ : State α} {trace : List (Event α)}
    (hinit : Initial old new s₀)
    (hrun : Run (Restrict Step fun _ ev => ev.isPrepend = true) s₀ trace s) :
    Inv (exchanges trace ++ old) s ∧ s.remover = none ∧ ∀ e, s.removed e = false := by
  obtain ⟨hcareful, hremover, hremoved⟩ := careful_of_prepends hinit.remover hrun
  obtain ⟨⟨L, h, hsub⟩, hnodup, hexchanged⟩ := inv_of_run hinit hcareful
  have hnone : ∀ e, s.removed e = false := fun e => by rw [hremoved, hinit.removed]
  have hperm : L.Perm (exchanges trace ++ old) := by
    rw [List.perm_ext_iff_of_nodup h.nodup hnodup]
    intro e
    rw [h.mem, hexchanged]
    simp [hnone, State.removing_none hremover]
  rw [← hsub.eq_of_length hperm.length_eq]
  exact ⟨h, hremover, hnone⟩

/-- When all prepends have finished, the list holds the old and the new elements. -/
theorem intact_of_prepends {old : List α} {new : Finset α} {s₀ : State α} {trace : List (Event α)}
    (hinit : Initial old new s₀)
    (hrun : Run (Restrict Step fun _ ev => ev.isPrepend = true) s₀ trace s)
    (hfinished : ∀ e ∈ new, s.prepend e = .inserted) :
    Intact s (exchanges trace ++ old) ∧ (∀ e ∈ exchanges trace ++ old, s.prepend e = .inserted) ∧
      ∀ e, e ∈ exchanges trace ++ old ↔ e ∈ old ∨ e ∈ new := by
  obtain ⟨hcareful, hremover, _⟩ := careful_of_prepends hinit.remover hrun
  obtain ⟨_, hinserted, hpart⟩ := inv_of_finished_run hinit hcareful ⟨hfinished, hremover⟩
  exact ⟨(inv_of_prepends hinit hrun).1.intact hinserted hremover, hinserted, hpart⟩

/-- However the steps of prepends interleave, once all calls have finished the list is intact: the new
elements in reverse order of their exchanges, followed by the old list. -/
theorem prepends_keep_list {old : List α} {new : Finset α} {s₀ : State α} {trace : List (Event α)}
    (hinit : Initial old new s₀)
    (hrun : Run (Restrict Step fun _ ev => ev.isPrepend = true) s₀ trace s)
    (hfinished : ∀ e ∈ new, s.prepend e = .inserted) :
    Intact s (exchanges trace ++ old) ∧ (∀ e, e ∈ exchanges trace ↔ e ∈ new) ∧
      s.count = s₀.count + new.card := by
  obtain ⟨hintact, _, hpart⟩ := intact_of_prepends hinit hrun hfinished
  obtain ⟨hnodup, _, hdisjoint⟩ := List.nodup_append.mp hintact.nodup
  have hnew : ∀ e, e ∈ exchanges trace ↔ e ∈ new := by
    intro e
    constructor
    · intro he
      refine ((hpart e).mp (List.mem_append_left _ he)).resolve_left fun hold => ?_
      exact hdisjoint e he e hold rfl
    · intro he
      have hmem := (hpart e).mpr (.inr he)
      exact (List.mem_append.mp hmem).resolve_right (hinit.fresh e he)
  refine ⟨hintact, hnew, ?_⟩
  have hcard : (exchanges trace).length = new.card := by
    rw [← List.toFinset_card_of_nodup hnodup]
    congr 1
    ext e
    rw [List.mem_toFinset, hnew]
  rw [hintact.count, hinit.intact.count, List.length_append, hcard, Nat.add_comm]

/-- The list holds `0`; the calls for `1` and `2` are about to begin. -/
def oneOld : State (Fin 3) :=
  { listStart := some 0, listEnd := some 0, count := 1, prev := fun _ => none, next := fun _ => none
    prepend := ![.inserted, .clearPrev, .clearPrev], prependPrev := fun _ => none
    remover := none, removed := fun _ => false }

theorem initial_oneOld : Initial [0] {1, 2} oneOld := by
  refine ⟨⟨⟨rfl, rfl⟩, by decide, by decide, by decide, rfl⟩, rfl, by decide, by decide, rfl, fun _ => rfl⟩

/-- Both calls exchange before either of them links its element. -/
def twoPrepends : List (Event (Fin 3)) :=
  [.clearPrev 1, .clearPrev 2, .exchange 1, .exchange 2, .storeNext 2, .storePrev 2, .testEnd 2,
    .storeNext 1, .increment 2, .storePrev 1, .testEnd 1, .increment 1]

theorem prepends_keep_list_twoPrepends :
    Intact (execute effect oneOld twoPrepends) [2, 1, 0] ∧
      (execute effect oneOld twoPrepends).count = 3 := by
  have hrun : Run (Restrict Step fun _ ev => ev.isPrepend = true) oneOld twoPrepends.reverse
      (execute effect oneOld twoPrepends) := run_execute_restrict (by decide)
  obtain ⟨hintact, _, hcount⟩ := prepends_keep_list initial_oneOld hrun (by decide)
  exact ⟨hintact, hcount⟩

/-! ### Prepends and removes -/

/-- In every run whose steps all keep clear of the three places, once all calls have finished: the
list is intact and consists of the old and the new elements without the removed ones. -/
theorem careful_calls_keep_list {old : List α} {new : Finset α} {s₀ : State α}
    {trace : List (Event α)} (hinit : Initial old new s₀)
    (hrun : Run (Restrict Step Careful) s₀ trace s) (hfinished : Finished new s) :
    ∃ L, Intact s L ∧ ∀ e, e ∈ L ↔ (e ∈ old ∨ e ∈ new) ∧ s.removed e = false := by
  obtain ⟨h, hinserted, hpart⟩ := inv_of_finished_run hinit hrun hfinished
  refine ⟨_, h.intact (fun e he => hinserted e (List.mem_filter.mp he).1) hfinished.2, fun e => ?_⟩
  rw [List.mem_filter, hpart, Bool.not_eq_true']

/-- Both prepends finish, then `0` is removed. -/
def removeLast : List (Event (Fin 3)) :=
  twoPrepends ++ [.enter 0, .checkCount, .loadPrev, .storeNextPrev, .testPrev, .loadPrevNode,
    .storePrevNext, .loadCount, .storeCount, .exit]

theorem careful_calls_keep_list_removeLast :
    ∃ L, Intact (execute effect oneOld removeLast) L ∧ ∀ e, e ∈ L ↔ (e ∈ [0] ∨ e ∈ ({1, 2} : Finset _)) ∧
      (execute effect oneOld removeLast).removed e = false := by
  have hrun : Run (Restrict Step Careful) oneOld removeLast.reverse
      (execute effect oneOld removeLast) := run_execute_restrict (by decide)
  exact careful_calls_keep_list initial_oneOld hrun (by decide)

/-- The call for `1` finishes. The one for `2` exchanges; while it has yet to store to `1`, the element
`1` is removed as if it were still the first. -/
def removeUnderPrepend : List (Event (Fin 3)) :=
  [.clearPrev 1, .exchange 1, .storeNext 1, .storePrev 1, .testEnd 1, .increment 1,
    .clearPrev 2, .exchange 2,
    .enter 1, .checkCount, .loadPrev, .storeNextPrev, .testPrev, .storeStart, .loadCount,
    .storeCount, .exit,
    .storeNext 2, .storePrev 2, .testEnd 2, .increment 2]

/-- The list then visits `0` alone: the element `2` is lost, though the count includes it. -/
theorem removeUnderPrepend_loses_element :
    let s := execute effect oneOld removeUnderPrepend
    Initial [0] {1, 2} oneOld ∧ Run Step oneOld removeUnderPrepend.reverse s ∧ Finished {1, 2} s ∧
      s.removed 2 = false ∧
      ¬ ∃ L, Intact s L ∧ ∀ e, e ∈ L ↔ (e ∈ [0] ∨ e ∈ ({1, 2} : Finset _)) ∧ s.removed e = false := by
  intro s
  refine ⟨initial_oneOld, run_execute (by decide), by decide, by decide, ?_⟩
  rintro ⟨L, hintact, hmem⟩
  -- following `next` from the start visits `0` and ends
  have hvisits := hintact.visits
  have h2 : (2 : Fin 3) ∈ L := (hmem 2).mpr (by decide)
  rcases L with _ | ⟨x, _ | ⟨y, L⟩⟩
  · cases h2
  · obtain rfl : 2 = x := List.mem_singleton.mp h2
    exact absurd hvisits.1 (by decide)
  · have hx : (some 0 : Option (Fin 3)) = some x := hvisits.1
    obtain rfl := Option.some.inj hx
    have hend : s.next 0 = none := by decide
    exact absurd (hend.symm.trans hvisits.2.1) (by simp)

end Multicore.UtList
