import Multicore.Base.Consecutive
import Multicore.UtList.Model

/-!
# The list in the middle of things

While calls are under way the pointers do not spell out the list. The invariant names the list they
are on their way to, and says for each pointer what it holds until the store that completes it:

* between a prepend's exchange and its store of `next`, the old head is in the call's local `prev`;
* until its store to the old head's `prev`, that field is not the new element yet;
* between a remove's two relinking stores, the `prev` of the element behind already skips the one
  that goes.

An element is in the list from its exchange to the second relinking store of its removal.
-/

namespace Multicore.UtList

variable {α : Type*}

/-! ### Phases -/

def PrependPc.exchanged : PrependPc → Bool
  | .absent | .clearPrev | .exchange => false
  | _ => true

/-- The pointers between the new element and the old head are not complete. -/
def PrependPc.linking : PrependPc → Bool
  | .storeNext | .storePrev => true
  | _ => false

/-- The predecessor has been read and the element is not relinked yet. -/
def RemovePc.linking : RemovePc → Bool
  | .storeNextPrev | .testPrev | .loadPrevNode | .storePrevNext | .storeStart => true
  | _ => false

/-- The element behind already points past the one that goes. -/
def RemovePc.bypassing : RemovePc → Bool
  | .testPrev | .loadPrevNode | .storePrevNext | .storeStart => true
  | _ => false

def RemovePc.unlinked : RemovePc → Bool
  | .loadCount | .storeCount | .exit => true
  | _ => false

/-- Unlinked, with the count still to be decremented. -/
def RemovePc.uncounted : RemovePc → Bool
  | .loadCount | .storeCount => true
  | _ => false

/-- `x` is the element under removal, in one of the given phases. -/
def State.Removing (s : State α) (phase : RemovePc → Bool) (x : α) : Prop :=
  ∃ r, s.remover = some r ∧ r.elem = x ∧ phase r.pc = true

/-- How many unlinked elements `count` still includes. -/
def State.uncounted (s : State α) : ℕ :=
  match s.remover with
  | some r => if r.pc.uncounted then 1 else 0
  | none => 0

/-! ### The invariant -/

/-- What the holder of the mutex relies on. -/
structure RemoverOk (L : List α) (s : State α) (r : Remover α) : Prop where
  inserted : s.prepend r.elem = .inserted
  notRemoved : s.removed r.elem = false
  preceded : r.pc.linking = true → PrecededBy L r.elem r.prev ∧ s.prev r.elem = r.prev ∧
    ∀ a, Consecutive L a r.elem → (s.prepend a).linking = false
  bypass : r.pc.bypassing = true → ∀ b, Consecutive L r.elem b → s.prev b = r.prev
  node : r.pc = .loadPrevNode ∨ r.pc = .storePrevNext → r.prev ≠ none
  first : r.pc = .storeStart → r.prev = none
  count : r.pc = .storeCount → r.count = s.count

/-- The list the pointers are on their way to is `L`. -/
structure Inv (L : List α) (s : State α) : Prop where
  nodup : L.Nodup
  start : s.listStart = L.head?
  mem : ∀ e, e ∈ L ↔ (s.prepend e).exchanged = true ∧ s.removed e = false ∧
    ¬ s.Removing RemovePc.unlinked e
  removed : ∀ e, s.removed e = true → s.prepend e = .inserted
  cleared : ∀ e, s.prepend e = .exchange → s.prev e = none
  next : ∀ a ∈ L, s.prepend a ≠ .storeNext → FollowedBy L a (s.next a)
  pending : ∀ a ∈ L, (s.prepend a).linking = true → FollowedBy L a (s.prependPrev a)
  pendingPrev : ∀ a, s.prepend a = .storePrev → s.prependPrev a ≠ none
  prev : ∀ b ∈ L, (∀ a, Consecutive L a b → (s.prepend a).linking = false ∧
    ¬ s.Removing RemovePc.bypassing a) → PrecededBy L b (s.prev b)
  remover : ∀ r, s.remover = some r → RemoverOk L s r
  count : s.count = L.countP (fun e => s.prepend e = .inserted) + s.uncounted

variable {L : List α} {s : State α} {e x : α}

theorem PrependPc.ne_of_linking_false {pc : PrependPc} (h : pc.linking = false) :
    pc ≠ .storeNext ∧ pc ≠ .storePrev := by
  cases pc <;> simp_all [PrependPc.linking]

theorem Inv.not_mem_of_prepend (h : Inv L s) (hpc : (s.prepend e).exchanged = false) : e ∉ L :=
  fun hmem => absurd (hpc.symm.trans ((h.mem e).mp hmem).1) Bool.false_ne_true

/-- An element whose prepend is not over is not under removal. -/
theorem Inv.not_removing (h : Inv L s) (hpc : s.prepend e ≠ .inserted) {phase : RemovePc → Bool} :
    ¬ s.Removing phase e := by
  rintro ⟨r, hr, rfl, _⟩
  exact hpc (h.remover r hr).inserted

/-- Between its exchange and its increment an element is in the list. -/
theorem Inv.mem_of_prepend (h : Inv L s) (hpc : s.prepend e ≠ .inserted)
    (hexchanged : (s.prepend e).exchanged = true) : e ∈ L := by
  refine (h.mem e).mpr ⟨hexchanged, ?_, h.not_removing hpc⟩
  by_contra hremoved
  exact hpc (h.removed e (by simpa using hremoved))

/-- The element under removal is in the list until its second relinking store. -/
theorem Inv.mem_of_remover (h : Inv L s) {r : Remover α} (hr : s.remover = some r)
    (hphase : r.pc.unlinked = false) : r.elem ∈ L := by
  refine (h.mem _).mpr ⟨?_, (h.remover r hr).notRemoved, ?_⟩
  · rw [(h.remover r hr).inserted]
    rfl
  · rintro ⟨r', hr', _, hunlinked⟩
    obtain rfl : r = r' := Option.some.inj (hr.symm.trans hr')
    exact absurd (hphase.symm.trans hunlinked) Bool.false_ne_true

theorem exists_remover {pc : RemovePc} (h : s.removerAt pc) : ∃ r, s.remover = some r ∧ r.pc = pc :=
  Option.map_eq_some_iff.mp h

theorem State.removing_iff {r : Remover α} (hr : s.remover = some r) {phase : RemovePc → Bool} :
    s.Removing phase x ↔ r.elem = x ∧ phase r.pc = true := by
  constructor
  · rintro ⟨r', hr', hx⟩
    obtain rfl : r = r' := Option.some.inj (hr.symm.trans hr')
    exact hx
  · exact fun hx => ⟨r, hr, hx⟩

theorem State.removing_none (hr : s.remover = none) {phase : RemovePc → Bool} :
    ¬ s.Removing phase x := by
  rintro ⟨r, hr', _⟩
  rw [hr] at hr'
  cases hr'

/-! ### What a step leaves in place -/

variable {s' : State α}

theorem Inv.mem_congr (h : Inv L s)
    (hexchanged : ∀ a, (s'.prepend a).exchanged = (s.prepend a).exchanged)
    (hremoved : s'.removed = s.removed) (hremover : s'.remover = s.remover) (a : α) :
    a ∈ L ↔ (s'.prepend a).exchanged = true ∧ s'.removed a = false ∧
      ¬ s'.Removing RemovePc.unlinked a := by
  unfold State.Removing
  rw [hexchanged, hremoved, hremover]
  exact h.mem a

theorem RemoverOk.congr {r : Remover α} (h : RemoverOk L s r)
    (hprepend : s'.prepend r.elem = s.prepend r.elem) (hremoved : s'.removed = s.removed)
    (hprev : r.pc.linking = true → s'.prev r.elem = s.prev r.elem)
    (hlinking : ∀ a, (s.prepend a).linking = false → (s'.prepend a).linking = false)
    (hbypass : r.pc.bypassing = true → ∀ b, Consecutive L r.elem b → s'.prev b = s.prev b)
    (hcount : r.pc = .storeCount → s'.count = s.count) : RemoverOk L s' r := by
  refine ⟨?_, ?_, fun hpc => ?_, fun hpc b hb => ?_, h.node, h.first, fun hpc => ?_⟩
  · rw [hprepend]
    exact h.inserted
  · rw [hremoved]
    exact h.notRemoved
  · obtain ⟨hpreceded, hsame, hdone⟩ := h.preceded hpc
    exact ⟨hpreceded, (hprev hpc).trans hsame, fun a ha => hlinking a (hdone a ha)⟩
  · rw [hbypass hpc b hb]
    exact h.bypass hpc b hb
  · rw [hcount hpc]
    exact h.count hpc

theorem uncounted_congr (hremover : s'.remover = s.remover) : s'.uncounted = s.uncounted := by
  unfold State.uncounted
  rw [hremover]

end Multicore.UtList
