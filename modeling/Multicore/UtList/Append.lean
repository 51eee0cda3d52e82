import Multicore.UtList.Intact

/-!
# Appending without the lock

`ut_list_free_append` of `ut0lst.h`. It is `ut_list_free_prepend` seen in a mirror: the two ends of the
list and the two fields of an element change places. `mirror` is that view, and a run of appends seen
through it is a run of prepends.
-/

namespace Multicore.UtList

variable {α : Type*}

/-- How far the `ut_list_free_append` call of an element has come; each constructor names the next
action. -/
inductive AppendPc where
  | absent | clearNext | exchange | storePrev | storeNext | testStart | storeStart | increment
  | inserted
  deriving DecidableEq, Repr

structure AppendState (α : Type*) where
  listStart : Option α
  listEnd : Option α
  count : ℕ
  prev : α → Option α
  next : α → Option α
  append : α → AppendPc
  /-- The local `next` of an append: what its exchange returned. -/
  appendNext : α → Option α

section Steps

variable [DecidableEq α]

def AppendState.setAppend (s : AppendState α) (e : α) (pc : AppendPc) : AppendState α :=
  { s with append := Function.update s.append e pc }

def appendStep (s : AppendState α) (e : α) : AppendState α :=
  match s.append e with
  | .clearNext => { s with next := Function.update s.next e none }.setAppend e .exchange
  | .exchange =>
    { s with
      listEnd := some e
      appendNext := Function.update s.appendNext e s.listEnd }.setAppend e .storePrev
  | .storePrev =>
    { s with prev := Function.update s.prev e (s.appendNext e) }.setAppend e
      (if s.appendNext e = none then .testStart else .storeNext)
  | .storeNext =>
    match s.appendNext e with
    | none => s
    | some p => { s with next := Function.update s.next p (some e) }.setAppend e .testStart
  | .testStart => s.setAppend e (if s.listStart = none then .storeStart else .increment)
  | .storeStart => { s with listStart := some e }.setAppend e .increment
  | .increment => { s with count := s.count + 1 }.setAppend e .inserted
  | .absent => s
  | .inserted => s

/-- The call for `e` is under way. -/
def AppendState.Active (s : AppendState α) (e : α) : Prop :=
  s.append e ≠ .absent ∧ s.append e ≠ .inserted

instance (s : AppendState α) (e : α) : Decidable (s.Active e) := inferInstanceAs (Decidable (_ ∧ _))

/-- The event is the element whose call makes its next step. -/
abbrev AppendStep : AppendState α → α → AppendState α → Prop := Fires AppendState.Active appendStep

end Steps

/-! ### The mirror -/

def AppendPc.mirror : AppendPc → PrependPc
  | .absent => .absent
  | .clearNext => .clearPrev
  | .exchange => .exchange
  | .storePrev => .storeNext
  | .storeNext => .storePrev
  | .testStart => .testEnd
  | .storeStart => .storeEnd
  | .increment => .increment
  | .inserted => .inserted

def AppendState.mirror (s : AppendState α) : State α where
  listStart := s.listEnd
  listEnd := s.listStart
  count := s.count
  prev := s.next
  next := s.prev
  prepend := fun e => (s.append e).mirror
  prependPrev := s.appendNext
  remover := none
  removed := fun _ => false

/-- The event of the prepend that corresponds to the next step of an append. -/
def AppendPc.event (e : α) : AppendPc → Event α
  | .absent | .clearNext => .clearPrev e
  | .exchange => .exchange e
  | .storePrev => .storeNext e
  | .storeNext => .storePrev e
  | .testStart => .testEnd e
  | .storeStart => .storeEnd e
  | .increment | .inserted => .increment e

variable [DecidableEq α] {s s' : AppendState α} {e : α}

theorem mirror_setAppend (pc : AppendPc) :
    (s.setAppend e pc).mirror = s.mirror.setPrepend e pc.mirror := by
  have hpc : (fun a => (Function.update s.append e pc a).mirror) =
      Function.update (fun a => (s.append a).mirror) e pc.mirror := by
    funext a
    by_cases ha : a = e
    · rw [ha, Function.update_self, Function.update_self]
    · rw [Function.update_of_ne ha, Function.update_of_ne ha]
  simp only [AppendState.mirror, AppendState.setAppend, State.setPrepend, hpc]

theorem mirror_appendStep : (appendStep s e).mirror = prependStep s.mirror e := by
  have hmirror : s.mirror.prepend e = (s.append e).mirror := rfl
  unfold appendStep prependStep
  rw [hmirror]
  cases s.append e with
  | storePrev => exact (mirror_setAppend _).trans (by rw [apply_ite AppendPc.mirror]; rfl)
  | testStart => exact (mirror_setAppend _).trans (by rw [apply_ite AppendPc.mirror]; rfl)
  | storeNext =>
    have hprev : s.mirror.prependPrev e = s.appendNext e := rfl
    simp only [AppendPc.mirror, hprev]
    cases s.appendNext e with
    | none => rfl
    | some p => exact mirror_setAppend _
  | absent | inserted => rfl
  | _ => exact mirror_setAppend _

/-- A step of an append is a step of the prepend in the mirror. -/
theorem mirror_step (hstep : AppendStep s e s') :
    Step s.mirror ((s.append e).event e) s'.mirror ∧ ((s.append e).event e).isPrepend = true := by
  obtain ⟨⟨habsent, hinserted⟩, rfl⟩ := hstep
  rw [mirror_appendStep]
  have hmirror : s.mirror.prepend e = (s.append e).mirror := rfl
  cases hpc : s.append e with
  | absent => exact absurd hpc habsent
  | inserted => exact absurd hpc hinserted
  | _ =>
    rw [hpc] at hmirror
    exact ⟨⟨hmirror, rfl⟩, rfl⟩

end Multicore.UtList
