import Mathlib.Order.Interval.Finset.Fin
import Multicore.Houses.Levels

/-!
# The houses a call has found

A call finds a house when it visits a vertex whose slot holds it. `Finds` relates `visit_house` and
`count_end` to the part of the search array that has been visited. Together with `Levels` this bounds
the distance of every house found, and when the houses lie apart it pins down the distance of the
house that is found next.
-/

namespace Multicore.Houses

theorem mem_before_succ {n : ℕ} {V : Type*} {c : Search n V} {u v : V} (hu : c.searchArray[c.i]? = some u) :
    v ∈ c.before (c.i + 1) ↔ v = u ∨ v ∈ c.before c.i := by
  constructor
  · rintro ⟨k, hk, hget⟩
    obtain hlt | rfl := Nat.lt_succ_iff_lt_or_eq.1 hk
    · exact .inr ⟨k, hlt, hget⟩
    · rw [hu] at hget
      exact .inl (Option.some.inj hget).symm
  · rintro (rfl | ⟨k, hk, hget⟩)
    · exact ⟨c.i, Nat.lt_succ_self _, hu⟩
    · exact ⟨k, Nat.lt_succ_of_lt hk, hget⟩

section Found

variable {n : ℕ} {V : Type*} {c : Search n V} {u x : V} {slot : V → Option V}
  (hfound : ∀ x, c.visitHouse x = true ↔ ∃ v ∈ c.before c.i, slot v = some x)
  (hu : c.searchArray[c.i]? = some u)

include hfound hu

/-- The flags after a visit that finds nothing new. -/
theorem found_iff_of_old (hold : ∀ x, slot u = some x → c.visitHouse x = true) (x : V) :
    c.visitHouse x = true ↔ ∃ v ∈ c.before (c.i + 1), slot v = some x := by
  constructor
  · intro hx
    obtain ⟨v, hv, hslot⟩ := (hfound x).1 hx
    exact ⟨v, (mem_before_succ hu).2 (.inr hv), hslot⟩
  · rintro ⟨v, hv, hslot⟩
    obtain rfl | hv := (mem_before_succ hu).1 hv
    · exact hold x hslot
    · exact (hfound x).2 ⟨v, hv, hslot⟩

/-- The flags after the house in the slot of the visited vertex has been marked. -/
theorem found_iff_of_new [DecidableEq V] {h : V} (hslot : slot u = some h) (x : V) :
    Function.update c.visitHouse h true x = true ↔ ∃ v ∈ c.before (c.i + 1), slot v = some x := by
  by_cases hx : x = h
  · subst hx
    simp only [Function.update_self, true_iff]
    exact ⟨u, (mem_before_succ hu).2 (.inl rfl), hslot⟩
  · rw [Function.update_of_ne hx, hfound x]
    constructor
    · rintro ⟨v, hv, hv'⟩
      exact ⟨v, (mem_before_succ hu).2 (.inr hv), hv'⟩
    · rintro ⟨v, hv, hv'⟩
      obtain rfl | hv := (mem_before_succ hu).1 hv
      · rw [hslot] at hv'
        exact absurd (Option.some.inj hv').symm hx
      · exact ⟨v, hv, hv'⟩

end Found

/-! ### What the end of the loop body leaves alone -/

section Frame

variable {n : ℕ} {V : Type*} [DecidableEq V] {β : Type*}

theorem foldl_push_eq (f : Search n V → β) (hpush : ∀ c v, f (c.push v) = f c) (adjacency : List V)
    (c : Search n V) : f (adjacency.foldl Search.push c) = f c := by
  induction adjacency generalizing c with
  | nil => rfl
  | cons v adjacency ih => exact (ih (c.push v)).trans (hpush c v)

/-- A local variable that the loop over the neighbours and the level counters do not write. -/
theorem expand_eq (f : Search n V → β) (hpush : ∀ c v, f (c.push v) = f c)
    (hend : ∀ c, f c.endLevel = f c) (hnext : ∀ c : Search n V, f { c with i := c.i + 1, pc := .visit } = f c)
    (adjacency : List V) (c : Search n V) : f (c.expand adjacency) = f c := by
  rw [Search.expand, hnext, hend, foldl_push_eq f hpush]

variable (adjacency : List V) (c : Search n V)

@[simp] theorem expand_i : (c.expand adjacency).i = c.i + 1 := by
  have hend : ∀ c : Search n V, c.endLevel.i = c.i := by
    intro c
    rw [Search.endLevel]
    split <;> rfl
  rw [Search.expand]
  show (adjacency.foldl Search.push c).endLevel.i + 1 = c.i + 1
  rw [hend, foldl_push_eq Search.i fun _ _ => push_i]

theorem prefix_expand : c.searchArray <+: (c.expand adjacency).searchArray := by
  have hend : ∀ c : Search n V, c.endLevel.searchArray = c.searchArray := by
    intro c
    rw [Search.endLevel]
    split <;> rfl
  show c.searchArray <+: (adjacency.foldl Search.push c).endLevel.searchArray
  rw [hend]
  induction adjacency generalizing c with
  | nil => exact List.prefix_refl _
  | cons v adjacency ih => exact prefix_push.trans (ih (c.push v))

variable {adjacency c} in
theorem before_expand (hi : c.i < c.searchArray.length) :
    (c.expand adjacency).before (c.i + 1) = c.before (c.i + 1) := by
  obtain ⟨rest, hrest⟩ := prefix_expand adjacency c
  ext v
  refine exists_congr fun k => and_congr_right fun hk => ?_
  rw [← hrest, List.getElem?_append_left (by omega)]

/-- The variables that finding a house writes. -/
def Search.ledger (c : Search n V) : (V → Bool) × ℕ × Bool × ℕ × ℕ :=
  (c.visitHouse, c.countEnd, c.leastFlag, c.least, c.most)

@[simp] theorem expand_ledger : (c.expand adjacency).ledger = c.ledger := by
  apply expand_eq Search.ledger
  · intro c v
    rw [Search.push]
    split <;> rfl
  · intro c
    rw [Search.endLevel]
    split <;> rfl
  · exact fun _ => rfl

@[simp] theorem expand_visitHouse : (c.expand adjacency).visitHouse = c.visitHouse :=
  congrArg (fun ledger => ledger.1) (expand_ledger adjacency c)

@[simp] theorem expand_countEnd : (c.expand adjacency).countEnd = c.countEnd :=
  congrArg (fun ledger => ledger.2.1) (expand_ledger adjacency c)

@[simp] theorem expand_leastFlag : (c.expand adjacency).leastFlag = c.leastFlag :=
  congrArg (fun ledger => ledger.2.2.1) (expand_ledger adjacency c)

@[simp] theorem expand_least : (c.expand adjacency).least = c.least :=
  congrArg (fun ledger => ledger.2.2.2.1) (expand_ledger adjacency c)

@[simp] theorem expand_most : (c.expand adjacency).most = c.most :=
  congrArg (fun ledger => ledger.2.2.2.2) (expand_ledger adjacency c)

theorem distance_le_expand : c.distance ≤ (c.expand adjacency).distance := by
  have hend : ∀ c : Search n V, c.distance ≤ c.endLevel.distance := by
    intro c
    rw [Search.endLevel]
    split
    · exact Nat.le_succ _
    · exact le_rfl
  calc c.distance = (adjacency.foldl Search.push c).distance :=
        (foldl_push_eq Search.distance (fun _ _ => push_distance) adjacency c).symm
    _ ≤ (c.expand adjacency).distance := hend _

end Frame

section System

variable {layout : Layout} {pruning : Bool} {start other : Fin layout.houseNum}
  {s : State layout.houseNum (Fin layout.verticeNum)}

theorem exists_current (pruning : Bool) (hen : Enabled layout s start) :
    ∃ u, (s.call start).searchArray[(s.call start).i]? = some u ∧
      effect layout pruning s start = stepAt layout pruning s start (s.call start) u := by
  refine ⟨_, List.getElem?_eq_getElem hen.2.2, ?_⟩
  rw [effect, List.getElem?_eq_getElem hen.2.2]

theorem call_stepAt_of_ne (hne : other ≠ start) {u : Fin layout.verticeNum}
    {c : Search layout.houseNum (Fin layout.verticeNum)} :
    (stepAt layout pruning s start c u).call other = s.call other := by
  rw [stepAt]
  split <;> (try split) <;> (try split) <;> first | rfl | exact State.setCall_call_of_ne hne

theorem call_effect_of_ne (hne : other ≠ start) :
    (effect layout pruning s start).call other = s.call other := by
  rw [effect]
  split
  · rfl
  · exact call_stepAt_of_ne hne

end System

/-! ### Houses found up to an index -/

variable {input : Input} {start k : Fin input.houseNum} {m : ℕ} {u : Fin input.verticeNum}
  {c : Search input.houseNum (Fin input.verticeNum)}

/-- The houses behind the start that the call has found. -/
def foundBehind (input : Input) (start : Fin input.houseNum) (visitHouse : Fin input.verticeNum → Bool) :
    Finset (Fin input.houseNum) :=
  (Finset.Ioi start).filter fun j => visitHouse (input.house j) = true

/-- The vertices before index `m` have been looked at for houses. -/
structure Finds (input : Input) (start : Fin input.houseNum) (m : ℕ)
    (c : Search input.houseNum (Fin input.verticeNum)) : Prop where
  visitHouse_iff : ∀ h, c.visitHouse h = true ↔ ∃ u ∈ c.before m, (input.vertice u).house = some h
  countEnd_eq : c.countEnd = start.val + 1 + (foundBehind input start c.visitHouse).card

theorem finds_initialCall : Finds input start 0 (initialCall input start) := by
  refine ⟨fun h => ?_, ?_⟩
  · simp [initialCall, Search.before]
  · simp [initialCall, foundBehind, Nat.add_comm]

/-- `count_end` reaches the number of houses when every house behind the start has been found. -/
theorem Finds.countEnd_eq_iff (hfinds : Finds input start m c) :
    c.countEnd = input.houseNum ↔ ∀ j, start < j → c.visitHouse (input.house j) = true := by
  have hcard : (Finset.Ioi start).card = input.houseNum - 1 - start.val := Fin.card_Ioi start
  have hstart := start.isLt
  rw [hfinds.countEnd_eq]
  constructor
  · intro hcount j hj
    have hall : (Finset.Ioi start).filter (fun j => c.visitHouse (input.house j) = true) =
        Finset.Ioi start := by
      apply Finset.eq_of_subset_of_card_le (Finset.filter_subset _ _)
      rw [hcard]
      rw [foundBehind] at hcount
      omega
    rw [← Finset.mem_Ioi, ← hall] at hj
    exact (Finset.mem_filter.1 hj).2
  · intro hall
    have hfilter : foundBehind input start c.visitHouse = Finset.Ioi start :=
      Finset.filter_true_of_mem fun j hj => hall j (Finset.mem_Ioi.1 hj)
    rw [hfilter, hcard]
    omega

/-- A visit that finds nothing new. -/
theorem Finds.skip (hfinds : Finds input start c.i c) (hu : c.searchArray[c.i]? = some u)
    (hold : ∀ h, (input.vertice u).house = some h → c.visitHouse h = true) :
    Finds input start (c.i + 1) c :=
  ⟨found_iff_of_old hfinds.visitHouse_iff hu hold, hfinds.countEnd_eq⟩

/-- The index of a new house behind the start joins those found. -/
theorem foundBehind_update {visitHouse : Fin input.verticeNum → Bool} (hk : start < k)
    (hnew : visitHouse (input.house k) = false) :
    (foundBehind input start (Function.update visitHouse (input.house k) true)).card =
      (foundBehind input start visitHouse).card + 1 := by
  have hinsert : foundBehind input start (Function.update visitHouse (input.house k) true) =
      insert k (foundBehind input start visitHouse) := by
    ext j
    by_cases hj : j = k
    · subst hj
      simp [foundBehind, hk]
    · have hne : input.house j ≠ input.house k := fun heq => hj (input.house_injective heq)
      simp [foundBehind, hj, Function.update_of_ne hne]
  rw [hinsert, Finset.card_insert_of_notMem]
  simp [foundBehind, hnew]

theorem foundBehind_update_of_not_behind {visitHouse : Fin input.verticeNum → Bool}
    {h : Fin input.verticeNum} (hnone : ∀ j, start < j → input.house j ≠ h) :
    foundBehind input start (Function.update visitHouse h true) = foundBehind input start visitHouse := by
  apply Finset.filter_congr
  intro j hj
  rw [Function.update_of_ne (hnone j (Finset.mem_Ioi.1 hj))]

theorem Finds.expand (hfinds : Finds input start (c.i + 1) c) (hi : c.i < c.searchArray.length)
    (adjacency : List (Fin input.verticeNum)) : Finds input start (c.i + 1) (c.expand adjacency) := by
  refine ⟨fun h => ?_, ?_⟩
  · rw [before_expand hi, expand_visitHouse]
    exact hfinds.visitHouse_iff h
  · rw [expand_countEnd, expand_visitHouse]
    exact hfinds.countEnd_eq

/-! ### Distances of the houses found -/

/-- Every house found so far is at most one road behind the current level. -/
theorem houseDist_le_of_found (hlevels : Levels input.graph (input.house start) c)
    (hfinds : Finds input start m c) (hm : m ≤ c.i + 1) (hi : c.i < c.searchArray.length)
    (hfound : c.visitHouse (input.house k) = true) : input.houseDist start k ≤ c.distance + 1 := by
  obtain ⟨u, ⟨l, hl, hget⟩, hslot⟩ := (hfinds.visitHouse_iff _).1 hfound
  have hu : input.graph.dist (input.house start) u ≤ c.distance :=
    hlevels.dist_before_le hi ⟨l, by omega, hget⟩
  have hslot' : input.graph.dist u (input.house k) ≤ 1 := Layout.dist_slot_le hslot
  exact input.connected.dist_triangle.trans (add_le_add hu hslot')

/-- With the houses apart, a house that no vertex before the current one has shown is at least one
road behind the current level. -/
theorem le_houseDist_of_unseen (hspread : input.SpreadOut)
    (hlevels : Levels input.graph (input.house start) c) (hne : k ≠ start)
    (hunseen : ∀ v ∈ c.before c.i, (input.vertice v).house ≠ some (input.house k)) :
    c.distance + 1 ≤ input.houseDist start k := by
  by_contra hlt
  have hpos : 0 < input.houseDist start k := Input.houseDist_pos hne.symm
  obtain ⟨d, hd⟩ : ∃ d, input.houseDist start k = d + 1 := ⟨_, (Nat.sub_add_cancel hpos).symm⟩
  obtain ⟨u, hadj, hu⟩ := exists_adj_of_dist_eq_succ hd
  have hbefore : u ∈ c.before c.i :=
    hlevels.mem_before_of_dist_lt (by rw [hu]; omega)
  exact hunseen u hbefore (hspread.slot_of_adj hadj)

theorem Finds.unseen_of_not_found (hfinds : Finds input start m c) (hm : c.i ≤ m)
    (hnot : c.visitHouse (input.house k) = false) :
    ∀ v ∈ c.before c.i, (input.vertice v).house ≠ some (input.house k) := by
  rintro v ⟨l, hl, hget⟩ hslot
  have hfound := (hfinds.visitHouse_iff _).2 ⟨v, ⟨l, by omega, hget⟩, hslot⟩
  rw [hnot] at hfound
  exact Bool.false_ne_true hfound

/-- With the houses apart, a call at the end of its search array has found all other houses. -/
theorem found_of_end (hspread : input.SpreadOut)
    (hlevels : Levels input.graph (input.house start) c) (hfinds : Finds input start c.i c)
    (hend : c.searchArray.length ≤ c.i) (hne : k ≠ start) : c.visitHouse (input.house k) = true := by
  have hpos : 0 < input.houseDist start k := Input.houseDist_pos hne.symm
  obtain ⟨d, hd⟩ : ∃ d, input.houseDist start k = d + 1 := ⟨_, (Nat.sub_add_cancel hpos).symm⟩
  obtain ⟨u, hadj, -⟩ := exists_adj_of_dist_eq_succ hd
  exact (hfinds.visitHouse_iff _).2
    ⟨u, hlevels.mem_before_of_end hend u, hspread.slot_of_adj hadj⟩

end Multicore.Houses
