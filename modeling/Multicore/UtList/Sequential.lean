import Multicore.UtList.Alone

/-!
# The list routines called one after another

The routines of `ut0lst.h` as whole calls, for a list that one thread works on: the two replaced ones
with the bodies they had before, which the source keeps behind the `return`, and the ones that were
left alone. Every statement is one change of the base node or of the pointers of one element, in the
order of the source. `UT_LIST_REMOVE_CLEAR` does nothing without `UNIV_LIST_DEBUG`.
-/

namespace Multicore.UtList

/-- The base node of a two-way list and the list nodes inside the elements. -/
@[ext]
structure TwoWayList (α : Type*) where
  count : ℕ
  listStart : Option α
  listEnd : Option α
  prev : α → Option α
  next : α → Option α

variable {α : Type*}

/-- The list read from the other end. -/
def TwoWayList.mirror (l : TwoWayList α) : TwoWayList α where
  count := l.count
  listStart := l.listEnd
  listEnd := l.listStart
  prev := l.next
  next := l.prev

section Routines

variable [DecidableEq α]

def utListFreePrepend (l : TwoWayList α) (elem : α) : TwoWayList α :=
  let l := { l with prev := Function.update l.prev elem none }
  let prev := l.listStart
  let l := { l with listStart := some elem }
  let l := { l with next := Function.update l.next elem prev }
  let l := match prev with
    | some p => { l with prev := Function.update l.prev p (some elem) }
    | none => l
  let l := if l.listEnd = none then { l with listEnd := some elem } else l
  { l with count := l.count + 1 }

def utListPrepend (l : TwoWayList α) (elem : α) : TwoWayList α := utListFreePrepend l elem

/-- The body of `ut_list_prepend` behind its `return`. -/
def utListPrependBefore (l : TwoWayList α) (elem : α) : TwoWayList α :=
  let l := { l with prev := Function.update l.prev elem none }
  let l := { l with next := Function.update l.next elem l.listStart }
  let l := match l.listStart with
    | some base => { l with prev := Function.update l.prev base (some elem) }
    | none => l
  let l := { l with listStart := some elem }
  let l := if l.listEnd = none then { l with listEnd := some elem } else l
  { l with count := l.count + 1 }

def utListFreeAppend (l : TwoWayList α) (elem : α) : TwoWayList α :=
  let l := { l with next := Function.update l.next elem none }
  let next := l.listEnd
  let l := { l with listEnd := some elem }
  let l := { l with prev := Function.update l.prev elem next }
  let l := match next with
    | some p => { l with next := Function.update l.next p (some elem) }
    | none => l
  let l := if l.listStart = none then { l with listStart := some elem } else l
  { l with count := l.count + 1 }

def utListAppend (l : TwoWayList α) (elem : α) : TwoWayList α := utListFreeAppend l elem

/-- The body of `ut_list_append` behind its `return`. -/
def utListAppendBefore (l : TwoWayList α) (elem : α) : TwoWayList α :=
  let l := { l with next := Function.update l.next elem none }
  let l := { l with prev := Function.update l.prev elem l.listEnd }
  let l := match l.listEnd with
    | some base => { l with next := Function.update l.next base (some elem) }
    | none => l
  let l := { l with listEnd := some elem }
  let l := if l.listStart = none then { l with listStart := some elem } else l
  { l with count := l.count + 1 }

/-- `elem2` goes in behind `elem1`. -/
def utListInsert (l : TwoWayList α) (elem1 elem2 : α) : TwoWayList α :=
  let l := { l with prev := Function.update l.prev elem2 (some elem1) }
  let l := { l with next := Function.update l.next elem2 (l.next elem1) }
  let l := match l.next elem1 with
    | some b => { l with prev := Function.update l.prev b (some elem2) }
    | none => l
  let l := { l with next := Function.update l.next elem1 (some elem2) }
  let l := if l.listEnd = some elem1 then { l with listEnd := some elem2 } else l
  { l with count := l.count + 1 }

/-- The call fails if the assertion `list.count > 0` does. -/
def utListRemove (l : TwoWayList α) (elem : α) : Option (TwoWayList α) :=
  if 0 < l.count then
    let l := match l.next elem with
      | some b => { l with prev := Function.update l.prev b (l.prev elem) }
      | none => { l with listEnd := l.prev elem }
    let l := match l.prev elem with
      | some a => { l with next := Function.update l.next a (l.next elem) }
      | none => { l with listStart := l.next elem }
    some { l with count := l.count - 1 }
  else none

end Routines

/-- The elements a loop visits that follows `step` from `elem` until it is `NULL`; `fuel` bounds the
number of rounds. -/
def walk (step : α → Option α) : ℕ → Option α → Option (List α)
  | _, none => some []
  | 0, some _ => none
  | fuel + 1, some elem => (walk step fuel (step elem)).map (elem :: ·)

/-- The elements `ut_list_map` calls its functor with. The assertion compares their number with
`list.count`. -/
def utListMap (fuel : ℕ) (l : TwoWayList α) : Option (List α) :=
  match walk l.next fuel l.listStart with
  | none => none
  | some visited => if visited.length = l.count then some visited else none

/-- The elements `ut_list_validate` calls its functor with, on both of its walks. -/
def utListValidate (fuel : ℕ) (l : TwoWayList α) : Option (List α) :=
  match utListMap fuel l, walk l.prev fuel l.listEnd with
  | some forward, some backward =>
    if backward.length = l.count then some (forward ++ backward) else none
  | _, _ => none

/-! ### The replaced routines -/

section Replaced

variable [DecidableEq α] {l : TwoWayList α} {e : α}

theorem utListFreePrepend_eq (l : TwoWayList α) (e : α) :
    utListFreePrepend l e = utListPrependBefore l e := by
  unfold utListFreePrepend utListPrependBefore
  cases l.listStart <;> rfl

theorem utListFreeAppend_eq (l : TwoWayList α) (e : α) :
    utListFreeAppend l e = utListAppendBefore l e := by
  unfold utListFreeAppend utListAppendBefore
  cases l.listEnd <;> rfl

theorem mirror_utListFreeAppend (l : TwoWayList α) (e : α) :
    (utListFreeAppend l e).mirror = utListFreePrepend l.mirror e := by
  unfold utListFreePrepend utListFreeAppend
  cases hend : l.listEnd <;> by_cases hstart : l.listStart = none <;>
    simp [TwoWayList.mirror, hend, hstart]

end Replaced

/-! ### What a list represents -/

/-- Base node and pointers, in both directions, spell out `L`. -/
structure Represents (l : TwoWayList α) (L : List α) : Prop where
  nodup : L.Nodup
  start : l.listStart = L.head?
  last : l.listEnd = L.getLast?
  next : ∀ a ∈ L, FollowedBy L a (l.next a)
  prev : ∀ b ∈ L, PrecededBy L b (l.prev b)
  count : l.count = L.length

variable {l : TwoWayList α} {L : List α} {e : α}

theorem Represents.mirror (h : Represents l L) : Represents l.mirror L.reverse where
  nodup := List.nodup_reverse.mpr h.nodup
  start := by rw [List.head?_reverse]; exact h.last
  last := by rw [List.getLast?_reverse]; exact h.start
  next a ha := followedBy_reverse.mpr (h.prev a (List.mem_reverse.mp ha))
  prev b hb := precededBy_reverse.mpr (h.next b (List.mem_reverse.mp hb))
  count := by rw [List.length_reverse]; exact h.count

theorem Represents.visits (h : Represents l L) : Visits l.next l.listStart L := by
  refine visits_iff.mpr ⟨h.start, fun a b hab => ?_, fun a ha => ?_⟩
  · exact (h.next a hab.mem_left).unique h.nodup hab
  · exact (h.next a (List.mem_of_getLast? ha)).unique h.nodup ha

theorem walk_of_visits {step : α → Option α} {start : Option α} (h : Visits step start L) {fuel : ℕ}
    (hfuel : L.length ≤ fuel) : walk step fuel start = some L := by
  induction L generalizing start fuel with
  | nil =>
    obtain rfl : start = none := h
    cases fuel <;> rfl
  | cons x L ih =>
    obtain ⟨rfl, hrest⟩ := h
    cases fuel with
    | zero => cases hfuel
    | succ fuel => rw [walk, ih hrest (Nat.le_of_succ_le_succ hfuel), Option.map_some]

/-- Both walks of `ut_list_validate` go over the whole list, once in each direction. -/
theorem Represents.validate (h : Represents l L) {fuel : ℕ} (hfuel : L.length ≤ fuel) :
    utListValidate fuel l = some (L ++ L.reverse) := by
  have hforward : walk l.next fuel l.listStart = some L := walk_of_visits h.visits hfuel
  have hbackward : walk l.prev fuel l.listEnd = some L.reverse :=
    walk_of_visits h.mirror.visits (by rwa [List.length_reverse])
  simp only [utListValidate, utListMap, hforward, hbackward, h.count, List.length_reverse, if_true]

section Operations

variable [DecidableEq α]

/-- The list as the state of the calls that append to it, with no call under way. -/
def TwoWayList.appending (l : TwoWayList α) : AppendState α where
  listStart := l.listStart
  listEnd := l.listEnd
  count := l.count
  prev := l.prev
  next := l.next
  append := fun _ => .absent
  appendNext := fun _ => none

def AppendState.list (s : AppendState α) : TwoWayList α where
  count := s.count
  listStart := s.listStart
  listEnd := s.listEnd
  prev := s.prev
  next := s.next

omit [DecidableEq α] in
theorem spells_iff {s : AppendState α} : Spells s L ↔ Represents s.list L :=
  ⟨fun h => ⟨h.nodup, h.start, h.last, h.next, h.prev, h.count⟩,
    fun h => ⟨h.nodup, h.start, h.last, h.next, h.prev, h.count⟩⟩

/-- The steps of an append with nobody else at work add up to the whole call. -/
theorem appendAlone_list (s : AppendState α) (e : α) :
    (appendAlone s e).list = utListFreeAppend s.list e := by
  unfold utListFreeAppend
  cases hend : s.listEnd <;> by_cases hstart : s.listStart = none <;>
    simp [AppendState.list, appendAlone, Function.iterate_succ_apply, appendStep,
      AppendState.setAppend, hend, hstart]

theorem Represents.append (h : Represents l L) (he : e ∉ L) :
    Represents (utListAppend l e) (L ++ [e]) := by
  have hspells : Spells l.appending L := spells_iff.mpr h
  have happended := spells_iff.mp (hspells.appendAlone he)
  rwa [appendAlone_list] at happended

theorem Represents.prepend (h : Represents l L) (he : e ∉ L) :
    Represents (utListPrepend l e) (e :: L) := by
  have happended := h.mirror.append (e := e) (by simpa using he)
  have hmirror : (utListAppend l.mirror e).mirror = utListPrepend l e :=
    mirror_utListFreeAppend l.mirror e
  simpa [hmirror] using happended.mirror

theorem utListInsert_eq {a : α} (hne : a ≠ e) : utListInsert l a e =
    { count := l.count + 1
      listStart := l.listStart
      listEnd := if l.listEnd = some a then some e else l.listEnd
      prev := match l.next a with
        | some b => Function.update (Function.update l.prev e (some a)) b (some e)
        | none => Function.update l.prev e (some a)
      next := Function.update (Function.update l.next e (l.next a)) a (some e) } := by
  unfold utListInsert
  simp only [Function.update_of_ne hne]
  cases l.next a <;> by_cases hend : l.listEnd = some a <;> simp [hend]

/-- Inserting behind a member, with the list split there. -/
theorem Represents.insert_split {a : α} {left right : List α}
    (h : Represents l (left ++ a :: right)) (he : e ∉ left ++ a :: right) :
    Represents (utListInsert l a e) (left ++ a :: e :: right) := by
  have ha : a ∈ left ++ a :: right := by simp
  have hne : a ≠ e := fun heq => he (heq ▸ ha)
  have hperm : (left ++ a :: e :: right).Perm (e :: (left ++ a :: right)) := by
    rw [List.append_cons, List.append_cons left a right]
    exact List.perm_middle
  have hnodup : (left ++ a :: e :: right).Nodup :=
    hperm.nodup_iff.mpr (List.nodup_cons.mpr ⟨he, h.nodup⟩)
  -- what follows `a` is the rest of the list
  have hnext : l.next a = right.head? :=
    (h.next a ha).unique h.nodup followedBy_cons_self.append_left
  have hmem : ∀ x ∈ left ++ a :: e :: right, x = e ∨ x ∈ left ++ a :: right := fun x hx =>
    List.mem_cons.mp (hperm.mem_iff.mp hx)
  rw [utListInsert_eq hne, hnext]
  refine ⟨hnodup, ?_, ?_, fun x hx => ?_, fun y hy => ?_, ?_⟩
  · rw [h.start]
    cases left <;> rfl
  · simp only [h.last, List.getLast?_append_cons]
    rcases right with _ | ⟨b, right⟩
    · simp
    · have hlast : (a :: b :: right).getLast? ≠ some a := by
        have hab : Consecutive (a :: b :: right) a b := consecutive_cons.mpr (.inl ⟨rfl, rfl⟩)
        exact hab.ne_last (List.nodup_append.mp h.nodup).2.1
      rw [if_neg hlast, List.getLast?_cons_cons, List.getLast?_cons_cons, List.getLast?_cons_cons]
  · by_cases hxa : x = a
    · subst hxa
      simp only [Function.update_self]
      exact FollowedBy.append_left (followedBy_cons_self (l := e :: right))
    · simp only [Function.update_of_ne hxa]
      rcases hmem x hx with rfl | hx
      · rw [Function.update_self]
        exact followedBy_cons_self.cons.append_left
      · have hxe : x ≠ e := fun heq => he (heq ▸ hx)
        rw [Function.update_of_ne hxe]
        exact (h.next x hx).insert hxa
  · have hpreceded : ∀ y, right.head? ≠ some y → y ∈ left ++ a :: e :: right →
        PrecededBy (left ++ a :: e :: right) y (Function.update l.prev e (some a) y) := by
      intro y hhead hy
      rcases hmem y hy with rfl | hy
      · rw [Function.update_self]
        exact consecutive_append_cons.mpr (.inr (.inl ⟨rfl, rfl⟩))
      · have hye : y ≠ e := fun heq => he (heq ▸ hy)
        rw [Function.update_of_ne hye]
        exact (h.prev y hy).insert hhead
    rcases right with _ | ⟨b, right⟩
    · exact hpreceded y (by simp) hy
    · by_cases hyb : y = b
      · subst hyb
        simp only [List.head?_cons, Function.update_self]
        exact consecutive_append_cons.mpr (.inr (.inr (consecutive_cons.mpr (.inl ⟨rfl, rfl⟩))))
      · simp only [List.head?_cons, Function.update_of_ne hyb]
        exact hpreceded y (by simpa using Ne.symm hyb) hy
  · simp only [h.count, List.length_append, List.length_cons]
    omega

theorem Represents.insert {a : α} (h : Represents l L) (ha : a ∈ L) (he : e ∉ L) :
    Represents (utListInsert l a e) (insertAfter a e L) := by
  obtain ⟨left, right, rfl, hleft⟩ := List.eq_append_cons_of_mem ha
  rw [insertAfter_split hleft]
  exact h.insert_split he

/-- The list after its pointers have been led past `e`, in both directions. -/
def TwoWayList.unlink (l : TwoWayList α) (e : α) : TwoWayList α where
  count := l.count - 1
  listStart := match l.prev e with
    | some _ => l.listStart
    | none => l.next e
  listEnd := match l.next e with
    | some _ => l.listEnd
    | none => l.prev e
  prev := match l.next e with
    | some b => Function.update l.prev b (l.prev e)
    | none => l.prev
  next := match l.prev e with
    | some a => Function.update l.next a (l.next e)
    | none => l.next

theorem utListRemove_eq (hcount : 0 < l.count) (hself : l.next e ≠ some e) :
    utListRemove l e = some (l.unlink e) := by
  unfold utListRemove TwoWayList.unlink
  rw [if_pos hcount]
  cases hnext : l.next e with
  | none => cases hprev : l.prev e <;> simp [hnext, hprev]
  | some b =>
    have hb : e ≠ b := fun heq => hself (hnext.trans (congrArg some heq.symm))
    cases hprev : l.prev e <;> simp [hnext, hprev, Function.update_of_ne hb]

theorem Represents.unlink_start (h : Represents l L) (he : e ∈ L) :
    (l.unlink e).listStart = (L.erase e).head? := by
  have hprev := h.prev e he
  simp only [TwoWayList.unlink]
  cases hp : l.prev e with
  | none =>
    rw [hp] at hprev
    exact ((h.next e he).head?_erase h.nodup hprev).symm
  | some a =>
    rw [hp] at hprev
    rw [head?_erase_of_ne (Consecutive.ne_head h.nodup hprev)]
    exact h.start

theorem Represents.unlink_next (h : Represents l L) (he : e ∈ L) :
    ∀ x ∈ L.erase e, FollowedBy (L.erase e) x ((l.unlink e).next x) := by
  intro x hx
  obtain ⟨hxe, hx⟩ := h.nodup.mem_erase_iff.mp hx
  have hprev := h.prev e he
  -- an element that `e` does not follow keeps its successor
  have hkeep : l.prev e ≠ some x → FollowedBy (L.erase e) x (l.next x) := by
    intro hpx
    refine (h.next x hx).erase h.nodup hxe fun hnext => hpx ?_
    have hxe : Consecutive L x e := by
      have hfollowed := h.next x hx
      rwa [hnext] at hfollowed
    exact hprev.unique h.nodup (q := some x) hxe
  simp only [TwoWayList.unlink]
  cases hp : l.prev e with
  | none => exact hkeep (by simp [hp])
  | some a =>
    by_cases hxa : x = a
    · subst hxa
      rw [hp] at hprev
      simp only [Function.update_self]
      exact (h.next e he).erase_over h.nodup hprev
    · simp only [Function.update_of_ne hxa]
      exact hkeep (by simpa [hp] using Ne.symm hxa)

theorem Represents.unlink (h : Represents l L) (he : e ∈ L) : Represents (l.unlink e) (L.erase e) := by
  have hreverse : L.reverse.erase e = (L.erase e).reverse := by
    rw [(List.nodup_reverse.mpr h.nodup).erase_eq_filter, h.nodup.erase_eq_filter, List.filter_reverse]
  -- the other direction is the same thing in the mirror
  have hlast := h.mirror.unlink_start (List.mem_reverse.mpr he)
  have hprev := h.mirror.unlink_next (List.mem_reverse.mpr he)
  rw [hreverse] at hlast hprev
  refine ⟨h.nodup.erase e, h.unlink_start he, ?_, h.unlink_next he, fun b hb => ?_, ?_⟩
  · rw [List.head?_reverse] at hlast
    exact hlast
  · exact followedBy_reverse.mp (hprev b (List.mem_reverse.mpr hb))
  · rw [List.length_erase_of_mem he, ← h.count]
    rfl

theorem Represents.remove (h : Represents l L) (he : e ∈ L) :
    ∃ l', utListRemove l e = some l' ∧ Represents l' (L.erase e) := by
  refine ⟨l.unlink e, utListRemove_eq ?_ fun hself => ?_, h.unlink he⟩
  · rw [h.count]
    exact List.length_pos_of_mem he
  · have hfollowed := h.next e he
    rw [hself] at hfollowed
    exact Consecutive.ne h.nodup hfollowed rfl

/-! ### The steps of the other two routines -/

def State.list (s : State α) : TwoWayList α where
  count := s.count
  listStart := s.listStart
  listEnd := s.listEnd
  prev := s.prev
  next := s.next

/-- A whole call of `ut_list_free_prepend`: it makes seven steps at most, and none after its last. -/
def prependAlone (s : State α) (e : α) : State α :=
  (prependStep · e)^[7] (s.setPrepend e .clearPrev)

theorem prependAlone_list (s : State α) (e : α) :
    (prependAlone s e).list = utListFreePrepend s.list e := by
  unfold utListFreePrepend
  cases hstart : s.listStart <;> by_cases hend : s.listEnd = none <;>
    simp [State.list, prependAlone, Function.iterate_succ_apply, prependStep, State.setPrepend,
      hend, hstart]

/-- A whole call of `ut_list_remove`: nine steps at most behind the one that takes the mutex. -/
def removeAlone (s : State α) (x : α) : State α := removerStep^[9] (effect s (.enter x))

theorem removeAlone_list {s : State α} (hcount : 0 < s.count) (x : α) :
    utListRemove s.list x = some (removeAlone s x).list := by
  rw [utListRemove, if_pos (show 0 < s.list.count from hcount)]
  cases hnext : s.next x with
  | none =>
    cases hprev : s.prev x <;>
      simp [State.list, removeAlone, effect, Function.iterate_succ_apply, removerStep, removeStep, hnext, hprev]
  | some b =>
    cases hprev : Function.update s.prev b (s.prev x) x <;>
      simp [State.list, removeAlone, effect, Function.iterate_succ_apply, removerStep, removeStep, hnext, hprev]

/-! ### Calls one after another -/

inductive Call (α : Type*) where
  | prepend (elem : α)
  | append (elem : α)
  | insert (elem1 elem2 : α)
  | remove (elem : α)
  deriving DecidableEq, Repr

def Call.run (l : TwoWayList α) : Call α → Option (TwoWayList α)
  | .prepend elem => some (utListPrepend l elem)
  | .append elem => some (utListAppend l elem)
  | .insert elem1 elem2 => some (utListInsert l elem1 elem2)
  | .remove elem => utListRemove l elem

/-- What the call is for, on the sequence of the elements. -/
def Call.apply (L : List α) : Call α → List α
  | .prepend elem => elem :: L
  | .append elem => L ++ [elem]
  | .insert elem1 elem2 => insertAfter elem1 elem2 L
  | .remove elem => L.erase elem

/-- Elements are put in that are not in the list, and taken out or inserted behind if they are. -/
def Call.Allowed (L : List α) : Call α → Prop
  | .prepend elem | .append elem => elem ∉ L
  | .insert elem1 elem2 => elem1 ∈ L ∧ elem2 ∉ L
  | .remove elem => elem ∈ L

def AllAllowed : List α → List (Call α) → Prop
  | _, [] => True
  | L, call :: calls => call.Allowed L ∧ AllAllowed (call.apply L) calls

theorem Represents.call {call : Call α} (h : Represents l L) (hallowed : call.Allowed L) :
    ∃ l', call.run l = some l' ∧ Represents l' (call.apply L) := by
  cases call with
  | prepend elem => exact ⟨_, rfl, h.prepend hallowed⟩
  | append elem => exact ⟨_, rfl, h.append hallowed⟩
  | insert elem1 elem2 => exact ⟨_, rfl, h.insert hallowed.1 hallowed.2⟩
  | remove elem => exact h.remove hallowed

theorem Represents.calls {calls : List (Call α)} (h : Represents l L) (hallowed : AllAllowed L calls) :
    ∃ l', calls.foldlM Call.run l = some l' ∧ Represents l' (calls.foldl Call.apply L) := by
  induction calls generalizing l L with
  | nil => exact ⟨l, rfl, h⟩
  | cons call calls ih =>
    obtain ⟨l₁, hrun, hrepresents⟩ := h.call hallowed.1
    obtain ⟨l', hrest, hfinal⟩ := ih hrepresents hallowed.2
    exact ⟨l', by rw [List.foldlM_cons, hrun]; exact hrest, hfinal⟩

/-- On a well-formed list the replaced routines leave what the original bodies left, for every element
that is not in it, and any sequence of calls keeps a well-formed list: it holds the elements that the
calls mean, in their order, and passes `ut_list_validate`. -/
theorem replacements_drop_in (h : Represents l L) :
    (∀ elem ∉ L, utListFreePrepend l elem = utListPrependBefore l elem ∧
      utListFreeAppend l elem = utListAppendBefore l elem) ∧
      ∀ calls, AllAllowed L calls → ∃ l', calls.foldlM Call.run l = some l' ∧
        Represents l' (calls.foldl Call.apply L) ∧
        ∀ fuel, (calls.foldl Call.apply L).length ≤ fuel →
          utListValidate fuel l' =
            some (calls.foldl Call.apply L ++ (calls.foldl Call.apply L).reverse) := by
  refine ⟨fun elem _ => ⟨utListFreePrepend_eq l elem, utListFreeAppend_eq l elem⟩,
    fun calls hallowed => ?_⟩
  obtain ⟨l', hrun, hfinal⟩ := h.calls hallowed
  exact ⟨l', hrun, hfinal, fun fuel hfuel => hfinal.validate hfuel⟩

end Operations

/-- `UT_LIST_INIT`, on elements with all pointers `NULL`. -/
def emptyList : TwoWayList (Fin 4) := ⟨0, none, none, fun _ => none, fun _ => none⟩

def mixedCalls : List (Call (Fin 4)) := [.prepend 0, .append 1, .insert 0 2, .remove 0, .prepend 3]

theorem replacements_drop_in_mixedCalls :
    ∃ l', mixedCalls.foldlM Call.run emptyList = some l' ∧ Represents l' [3, 2, 1] ∧
      utListValidate 3 l' = some [3, 2, 1, 1, 2, 3] := by
  have hempty : Represents emptyList [] := ⟨List.nodup_nil, rfl, rfl, by simp, by simp, rfl⟩
  obtain ⟨-, hcalls⟩ := replacements_drop_in hempty
  have hallowed : AllAllowed [] mixedCalls := by
    simp [AllAllowed, mixedCalls, Call.Allowed, Call.apply, insertAfter]
  obtain ⟨l', hrun, hrepresents, hvalidate⟩ := hcalls mixedCalls hallowed
  exact ⟨l', hrun, hrepresents, hvalidate 3 le_rfl⟩

end Multicore.UtList
