import Mathlib.Logic.Function.Basic
import Mathlib.Data.Fintype.Defs
import Multicore.Base.Run

/-!
# Prepending without the lock, removing with it

`ut_list_free_prepend` and `ut_list_remove` of `ut0lst.h`, as `mutex_create_func`, `mutex_free_func`
and their counterparts for read-write locks call them: prepends hold no lock, removes hold the mutex
of the list. Every access to a field that another call may write is an event of its own. The `next`
field of an element under removal is written by nobody else, so reading it goes with the store that
uses it.

An element is prepended by one call at most, so the locals of the call are kept by element. The
elements the list starts with count as inserted, and an element that takes no part is absent.
-/

namespace Multicore.UtList

/-- How far the `ut_list_free_prepend` call of an element has come; each constructor names the next
action. -/
inductive PrependPc where
  | absent | clearPrev | exchange | storeNext | storePrev | testEnd | storeEnd | increment | inserted
  deriving DecidableEq, Repr

/-- How far the `ut_list_remove` call inside the mutex has come. -/
inductive RemovePc where
  | checkCount | loadPrev | storeNextPrev | testPrev | loadPrevNode | storePrevNext | storeStart
  | loadCount | storeCount | exit
  deriving DecidableEq, Repr

/-- The call that holds the mutex. -/
structure Remover (α : Type*) where
  elem : α
  pc : RemovePc
  /-- The last value read from `elem_node.prev`. -/
  prev : Option α
  /-- The value of `list.count` that is about to be decremented. -/
  count : ℕ
  deriving Repr

structure State (α : Type*) where
  listStart : Option α
  listEnd : Option α
  count : ℕ
  prev : α → Option α
  next : α → Option α
  prepend : α → PrependPc
  /-- The local `prev` of a prepend: what its exchange returned. -/
  prependPrev : α → Option α
  /-- The holder of the mutex. -/
  remover : Option (Remover α)
  removed : α → Bool

variable {α : Type*} [DecidableEq α]

inductive Event (α : Type*) where
  | clearPrev (e : α) | exchange (e : α) | storeNext (e : α) | storePrev (e : α) | testEnd (e : α)
  | storeEnd (e : α) | increment (e : α)
  | enter (x : α) | checkCount | loadPrev | storeNextPrev | testPrev | loadPrevNode | storePrevNext
  | storeStart | loadCount | storeCount | exit
  deriving DecidableEq, Repr

/-- The holder of the mutex is at `pc`. -/
def State.removerAt (s : State α) (pc : RemovePc) : Prop := s.remover.map Remover.pc = some pc

instance (s : State α) (pc : RemovePc) : Decidable (s.removerAt pc) :=
  inferInstanceAs (Decidable (_ = _))

/-- At `checkCount` the assertion `list.count > 0` must hold, at `loadPrevNode` the pointer is
dereferenced; where these fail there is no next step. -/
def Enabled (s : State α) : Event α → Prop
  | .clearPrev e => s.prepend e = .clearPrev
  | .exchange e => s.prepend e = .exchange
  | .storeNext e => s.prepend e = .storeNext
  | .storePrev e => s.prepend e = .storePrev
  | .testEnd e => s.prepend e = .testEnd
  | .storeEnd e => s.prepend e = .storeEnd
  | .increment e => s.prepend e = .increment
  | .enter x => s.remover = none ∧ s.prepend x = .inserted ∧ s.removed x = false
  | .checkCount => s.removerAt .checkCount ∧ 0 < s.count
  | .loadPrev => s.removerAt .loadPrev
  | .storeNextPrev => s.removerAt .storeNextPrev
  | .testPrev => s.removerAt .testPrev
  | .loadPrevNode => s.removerAt .loadPrevNode ∧ s.remover.bind (fun r => s.prev r.elem) ≠ none
  | .storePrevNext => s.removerAt .storePrevNext
  | .storeStart => s.removerAt .storeStart
  | .loadCount => s.removerAt .loadCount
  | .storeCount => s.removerAt .storeCount
  | .exit => s.removerAt .exit

instance decidableEnabled (s : State α) (e : Event α) : Decidable (Enabled s e) := by
  cases e <;> unfold Enabled <;> infer_instance

def State.setPrepend (s : State α) (e : α) (pc : PrependPc) : State α :=
  { s with prepend := Function.update s.prepend e pc }

/-! ### `ut_list_free_prepend` -/

def prependStep (s : State α) (e : α) : State α :=
  match s.prepend e with
  | .clearPrev => { s with prev := Function.update s.prev e none }.setPrepend e .exchange
  | .exchange =>
    { s with
      listStart := some e
      prependPrev := Function.update s.prependPrev e s.listStart }.setPrepend e .storeNext
  | .storeNext =>
    { s with next := Function.update s.next e (s.prependPrev e) }.setPrepend e
      (if s.prependPrev e = none then .testEnd else .storePrev)
  | .storePrev =>
    match s.prependPrev e with
    | none => s
    | some p => { s with prev := Function.update s.prev p (some e) }.setPrepend e .testEnd
  | .testEnd => s.setPrepend e (if s.listEnd = none then .storeEnd else .increment)
  | .storeEnd => { s with listEnd := some e }.setPrepend e .increment
  | .increment => { s with count := s.count + 1 }.setPrepend e .inserted
  | .absent => s
  | .inserted => s

/-! ### `ut_list_remove` -/

def removeStep (s : State α) (r : Remover α) : State α :=
  match r.pc with
  | .checkCount => { s with remover := some { r with pc := .loadPrev } }
  | .loadPrev => { s with remover := some { r with pc := .storeNextPrev, prev := s.prev r.elem } }
  | .storeNextPrev =>
    match s.next r.elem with
    | some b =>
      { s with
        prev := Function.update s.prev b r.prev
        remover := some { r with pc := .testPrev } }
    | none => { s with listEnd := r.prev, remover := some { r with pc := .testPrev } }
  | .testPrev =>
    { s with
      remover := some { r with pc := if s.prev r.elem = none then .storeStart else .loadPrevNode } }
  | .loadPrevNode => { s with remover := some { r with pc := .storePrevNext, prev := s.prev r.elem } }
  | .storePrevNext =>
    match r.prev with
    | some a =>
      { s with
        next := Function.update s.next a (s.next r.elem)
        remover := some { r with pc := .loadCount } }
    | none => s
  | .storeStart =>
    { s with listStart := s.next r.elem, remover := some { r with pc := .loadCount } }
  | .loadCount => { s with remover := some { r with pc := .storeCount, count := s.count } }
  | .storeCount => { s with count := r.count - 1, remover := some { r with pc := .exit } }
  | .exit => { s with remover := none, removed := Function.update s.removed r.elem true }

/-- The action of the holder of the mutex. -/
def removerStep (s : State α) : State α :=
  match s.remover with
  | none => s
  | some r => removeStep s r

def effect (s : State α) : Event α → State α
  | .clearPrev e | .exchange e | .storeNext e | .storePrev e | .testEnd e | .storeEnd e
  | .increment e => prependStep s e
  | .enter x => { s with remover := some { elem := x, pc := .checkCount, prev := none, count := 0 } }
  | .checkCount | .loadPrev | .storeNextPrev | .testPrev | .loadPrevNode | .storePrevNext
  | .storeStart | .loadCount | .storeCount | .exit => removerStep s

abbrev Step : State α → Event α → State α → Prop := Fires Enabled effect

end Multicore.UtList
