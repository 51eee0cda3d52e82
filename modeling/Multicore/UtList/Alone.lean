import Multicore.UtList.Append

/-!
# Appending with nobody else at work

A list that belongs to one thread is built by calls that run from beginning to end one after another.
Each call then finds both ends of the list set or both ends empty, and the list comes out in the order
of the calls.
-/

namespace Multicore.UtList

variable {α : Type*} {s : AppendState α} {e : α} {L : List α}

/-- `UT_LIST_INIT` -/
def AppendState.init (s : AppendState α) : AppendState α :=
  { s with count := 0, listStart := none, listEnd := none }

/-- The pointers in both directions, the two ends and the count spell out `L`. -/
structure Spells (s : AppendState α) (L : List α) : Prop where
  nodup : L.Nodup
  start : s.listStart = L.head?
  last : s.listEnd = L.getLast?
  next : ∀ a ∈ L, FollowedBy L a (s.next a)
  prev : ∀ b ∈ L, PrecededBy L b (s.prev b)
  count : s.count = L.length

theorem spells_init : Spells s.init [] := by
  refine ⟨List.nodup_nil, rfl, rfl, ?_, ?_, rfl⟩ <;> simp

theorem Spells.visits (h : Spells s L) : Visits s.next s.listStart L := by
  refine visits_iff.mpr ⟨h.start, fun a b hab => ?_, fun a ha => ?_⟩
  · exact (h.next a hab.mem_left).unique h.nodup hab
  · exact (h.next a (List.mem_of_getLast? ha)).unique h.nodup ha

variable [DecidableEq α]

/-- A whole call of `ut_list_free_append`: it makes seven steps at most, and none after its last. -/
def appendAlone (s : AppendState α) (e : α) : AppendState α :=
  (appendStep · e)^[7] (s.setAppend e .clearNext)

theorem appendAlone_of_empty (hstart : s.listStart = none) (hend : s.listEnd = none) :
    (appendAlone s e).listStart = some e ∧ (appendAlone s e).listEnd = some e ∧
      (appendAlone s e).next = Function.update s.next e none ∧
      (appendAlone s e).prev = Function.update s.prev e none ∧
      (appendAlone s e).count = s.count + 1 := by
  simp [appendAlone, Function.iterate_succ_apply, appendStep, AppendState.setAppend, hstart, hend]

theorem appendAlone_of_last {p : α} (hstart : s.listStart ≠ none) (hend : s.listEnd = some p) :
    (appendAlone s e).listStart = s.listStart ∧ (appendAlone s e).listEnd = some e ∧
      (appendAlone s e).next = Function.update (Function.update s.next e none) p (some e) ∧
      (appendAlone s e).prev = Function.update s.prev e (some p) ∧
      (appendAlone s e).count = s.count + 1 := by
  simp [appendAlone, Function.iterate_succ_apply, appendStep, AppendState.setAppend, hstart, hend]

/-- A call puts its element behind the list. -/
theorem Spells.appendAlone (h : Spells s L) (he : e ∉ L) : Spells (appendAlone s e) (L ++ [e]) := by
  have hnodup : (L ++ [e]).Nodup := by
    rw [List.nodup_append]
    refine ⟨h.nodup, List.nodup_singleton e, fun a ha b hb => ?_⟩
    rw [List.mem_singleton.mp hb]
    exact fun heq => he (heq ▸ ha)
  have hself : FollowedBy (L ++ [e]) e none := List.getLast?_concat
  cases hlast : L.getLast? with
  | none =>
    obtain rfl : L = [] := List.getLast?_eq_none_iff.mp hlast
    obtain ⟨hstart, hend, hnext, hprev, hcount⟩ := appendAlone_of_empty (e := e) h.start h.last
    refine ⟨hnodup, hstart, hend, fun a ha => ?_, fun b hb => ?_, by rw [hcount, h.count]; rfl⟩
    · obtain rfl : a = e := by simpa using ha
      rw [hnext, Function.update_self]
      exact hself
    · obtain rfl : b = e := by simpa using hb
      rw [hprev, Function.update_self]
      rfl
  | some p =>
    have hp : p ∈ L := List.mem_of_getLast? hlast
    have hne : L ≠ [] := List.ne_nil_of_mem hp
    have hstart : s.listStart ≠ none := by rw [h.start]; simpa using hne
    obtain ⟨hstart, hend, hnext, hprev, hcount⟩ :=
      appendAlone_of_last (e := e) hstart (h.last.trans hlast)
    have hlink : PrecededBy (L ++ [e]) e (some p) := hlast ▸ precededBy_concat_self
    refine ⟨hnodup, ?_, ?_, fun a ha => ?_, fun b hb => ?_, ?_⟩
    · rw [hstart, h.start, List.head?_append_of_ne_nil _ hne]
    · rw [hend, List.getLast?_concat]
    · rw [hnext]
      by_cases hap : a = p
      · -- The last element so far gets its successor.
        rw [hap, Function.update_self]
        exact hlink
      · rw [Function.update_of_ne hap]
        rcases List.mem_append.mp ha with ha | ha
        · have hae : a ≠ e := fun heq => he (heq ▸ ha)
          rw [Function.update_of_ne hae]
          refine (h.next a ha).concat fun heq => hap ?_
          exact Option.some.inj (heq.symm.trans hlast)
        · rw [List.mem_singleton.mp ha, Function.update_self]
          exact hself
    · rw [hprev]
      rcases List.mem_append.mp hb with hb | hb
      · have hbe : b ≠ e := fun heq => he (heq ▸ hb)
        rw [Function.update_of_ne hbe]
        exact (h.prev b hb).concat
      · rw [List.mem_singleton.mp hb, Function.update_self]
        exact hlink
    · rw [hcount, h.count, List.length_append, List.length_singleton]

/-- Calls one after another spell out their elements in order. -/
theorem spells_appends {new : List α} (h : Spells s L) (hnodup : (L ++ new).Nodup) :
    Spells (new.foldl UtList.appendAlone s) (L ++ new) := by
  induction new generalizing s L with
  | nil => simpa using h
  | cons e new ih =>
    have he : e ∉ L := by
      intro hmem
      exact (List.nodup_append.mp hnodup).2.2 e hmem e List.mem_cons_self rfl
    have hsplit : L ++ e :: new = (L ++ [e]) ++ new := by simp
    rw [hsplit] at hnodup ⊢
    exact ih (h.appendAlone he) hnodup

end Multicore.UtList
