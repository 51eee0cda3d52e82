import Mathlib.Order.Bounds.Basic
import Multicore.Houses.Order

/-!
# The records of a call

A call records a house when it visits the first vertex, in breadth-first order, whose slot holds it,
and the recorded distance is one more than the level of that vertex. `least` and `most` follow only
the houses that are first shown beyond level one: `least` is the level of the first of them, `most`
that of the last as soon as there are two. All of this holds in any graph and for any list of houses.
-/

namespace Multicore.Houses

namespace Layout

variable (layout : Layout) (start : Fin layout.houseNum)

/-- The vertices up to level `d` of a breadth-first search from a house, in the order of the
search. -/
def reached (d : ℕ) : List (Fin layout.verticeNum) :=
  breadthFirst (fun v => (layout.vertice v).adjacency) (layout.house start) d

/-- Some vertex up to level `d` has the house `x` in its slot. -/
def Shown (d : ℕ) (x : Fin layout.verticeNum) : Prop :=
  ∃ u ∈ layout.reached start d, (layout.vertice u).house = some x

/-- The level on which a house is shown first. -/
def FirstShown (x : Fin layout.verticeNum) (d : ℕ) : Prop := IsLeast {d | layout.Shown start d x} d

/-- The index under which a call records a house. -/
def indexBehind (x : Fin layout.verticeNum) : Option (Fin layout.houseNum) :=
  (List.finRange layout.houseNum).find? fun j => start < j ∧ layout.house j = x

variable {layout start} {x : Fin layout.verticeNum} {d e : ℕ} {j : Fin layout.houseNum}

theorem mem_reached {v : Fin layout.verticeNum} :
    v ∈ layout.reached start d ↔
      layout.graph.Reachable (layout.house start) v ∧ layout.graph.dist (layout.house start) v ≤ d :=
  mem_breadthFirst (fun _ _ => eq_or_adj_of_mem_adjacency) fun _ _ => mem_adjacency_of_adj

theorem Shown.mono (h : layout.Shown start d x) (hle : d ≤ e) : layout.Shown start e x := by
  obtain ⟨u, hu, hslot⟩ := h
  exact ⟨u, mem_breadthFirst_of_le hle hu, hslot⟩

theorem FirstShown.not_shown (h : layout.FirstShown start x d) (hlt : e < d) : ¬ layout.Shown start e x :=
  fun hshown => absurd (h.2 hshown) (not_le.2 hlt)

theorem lt_of_indexBehind (h : layout.indexBehind start x = some j) : start < j ∧ layout.house j = x := by
  have hj := List.find?_some h
  rwa [decide_eq_true_eq] at hj

theorem indexBehind_ne_none (hj : start < j) : layout.indexBehind start (layout.house j) ≠ none := by
  intro hnone
  have hnot := List.find?_eq_none.1 hnone j (List.mem_finRange j)
  rw [decide_eq_true_eq] at hnot
  exact hnot ⟨hj, rfl⟩

end Layout

variable {layout : Layout} {pruning : Bool} {start : Fin layout.houseNum} {u x : Fin layout.verticeNum}
  {c : Search layout.houseNum (Fin layout.verticeNum)} {row : Fin layout.houseNum → ℕ} {m : ℕ}

/-! ### What has been found -/

/-- The houses found, counted by the indices under which they are recorded. -/
def foundFirst (layout : Layout) (start : Fin layout.houseNum) (visitHouse : Fin layout.verticeNum → Bool) :
    Finset (Fin layout.houseNum) :=
  (Finset.Ioi start).filter fun j =>
    visitHouse (layout.house j) = true ∧ layout.indexBehind start (layout.house j) = some j

/-- The vertices before index `m` have been looked at for houses. -/
structure Noted (layout : Layout) (start : Fin layout.houseNum) (m : ℕ)
    (c : Search layout.houseNum (Fin layout.verticeNum)) : Prop where
  ordered : Ordered (fun v => (layout.vertice v).adjacency) (layout.house start) c
  found_iff : ∀ x, c.visitHouse x = true ↔ ∃ u ∈ c.before m, (layout.vertice u).house = some x
  count_eq : c.countEnd = start.val + 1 + (foundFirst layout start c.visitHouse).card

/-- A call that counts all houses behind the start has found each under its own index. -/
theorem Noted.all_found (h : Noted layout start m c) (hcount : c.countEnd = layout.houseNum)
    {j : Fin layout.houseNum} (hj : start < j) :
    c.visitHouse (layout.house j) = true ∧ layout.indexBehind start (layout.house j) = some j := by
  have hcard : (Finset.Ioi start).card = layout.houseNum - 1 - start.val := Fin.card_Ioi start
  have hstart := start.isLt
  have hall : foundFirst layout start c.visitHouse = Finset.Ioi start := by
    apply Finset.eq_of_subset_of_card_le (Finset.filter_subset _ _)
    have heq := h.count_eq
    rw [hcard]
    rw [foundFirst] at heq
    omega
  rw [← Finset.mem_Ioi, ← hall] at hj
  exact (Finset.mem_filter.1 hj).2

theorem foundFirst_update (visitHouse : Fin layout.verticeNum → Bool) (hnew : visitHouse x = false) :
    (foundFirst layout start (Function.update visitHouse x true)).card =
      (foundFirst layout start visitHouse).card +
        if (layout.indexBehind start x).isSome then 1 else 0 := by
  have hother : ∀ j, layout.house j ≠ x → (j ∈ foundFirst layout start (Function.update visitHouse x true) ↔
      j ∈ foundFirst layout start visitHouse) := by
    intro j hj
    simp only [foundFirst, Finset.mem_filter, Function.update_of_ne hj]
  cases hindex : layout.indexBehind start x with
  | none =>
    rw [Option.isSome_none, if_neg Bool.false_ne_true, Nat.add_zero]
    congr 1
    ext j
    by_cases hj : layout.house j = x
    · simp only [foundFirst, Finset.mem_filter, hj, hindex]
      simp
    · exact hother j hj
  | some k =>
    obtain ⟨hlt, hk⟩ := Layout.lt_of_indexBehind hindex
    have hinsert : foundFirst layout start (Function.update visitHouse x true) =
        insert k (foundFirst layout start visitHouse) := by
      ext j
      by_cases hj : layout.house j = x
      · simp only [foundFirst, Finset.mem_filter, Finset.mem_insert, hj, hindex, Function.update_self, hnew,
          Finset.mem_Ioi]
        by_cases hjk : j = k
        · simp [hjk, hlt]
        · simp [hjk, Ne.symm hjk]
      · have hjk : j ≠ k := by
          rintro rfl
          exact hj hk
        rw [Finset.mem_insert, or_iff_right hjk]
        exact hother j hj
    rw [hinsert, Finset.card_insert_of_notMem]
    · rfl
    · simp [foundFirst, hk, hnew]

/-- The vertex under visit shows the house `x`, which no vertex before it does; the records do not
count it yet. -/
structure Showing (layout : Layout) (start : Fin layout.houseNum) (u x : Fin layout.verticeNum)
    (c : Search layout.houseNum (Fin layout.verticeNum)) : Prop where
  noted : Noted layout start (c.i + 1) c
  current : c.searchArray[c.i]? = some u
  slot : (layout.vertice u).house = some x
  unseen : ∀ v ∈ c.before c.i, (layout.vertice v).house ≠ some x
  counted : c.countEnd = layout.houseNum → (layout.indexBehind start x).isSome

/-- The level of the vertex under visit is where the house is shown first. -/
theorem Showing.firstShown (h : Showing layout start u x c) :
    layout.FirstShown start x c.distance := by
  refine ⟨⟨u, h.noted.ordered.mem_level h.current, h.slot⟩, ?_⟩
  rintro d ⟨v, hv, hslot⟩
  by_contra hlt
  exact h.unseen v (h.noted.ordered.mem_before (not_le.1 hlt) hv) hslot

/-! ### What has been recorded -/

/-- The houses of `F` that no vertex up to level one shows. -/
def farFrom (layout : Layout) (start : Fin layout.houseNum) (F : Set (Fin layout.verticeNum)) :
    Set (Fin layout.verticeNum) :=
  {x | x ∈ F ∧ ¬ layout.Shown start 1 x}

/-- The row of a call and its extremes, when the houses `F` have been found. -/
structure Kept (layout : Layout) (start : Fin layout.houseNum) (F : Set (Fin layout.verticeNum))
    (c : Search layout.houseNum (Fin layout.verticeNum)) (row : Fin layout.houseNum → ℕ) : Prop where
  rows : ∀ x ∈ F, ∀ j, layout.indexBehind start x = some j →
    ∃ d, layout.FirstShown start x d ∧ row j = d + 1
  shown : ∀ x ∈ F, layout.Shown start c.distance x
  flag_iff : c.leastFlag = true ↔ farFrom layout start F = ∅
  near : c.leastFlag = true → c.least = 0 ∧ c.most = 0
  least_ge : c.leastFlag = false → 2 ≤ c.least
  least_le : c.leastFlag = false →
    ∀ x ∈ farFrom layout start F, ∀ d, layout.Shown start d x → c.least ≤ d
  most : (c.most = 0 ∧ (farFrom layout start F).Subsingleton) ∨
    (¬ (farFrom layout start F).Subsingleton ∧ ∀ x ∈ F, layout.Shown start c.most x)

section Book

variable {F : Set (Fin layout.verticeNum)}

theorem farFrom_insert_of_shown (hx : layout.Shown start 1 x) :
    farFrom layout start (insert x F) = farFrom layout start F := by
  ext y
  constructor
  · rintro ⟨rfl | hy, hfar⟩
    · exact absurd hx hfar
    · exact ⟨hy, hfar⟩
  · rintro ⟨hy, hfar⟩
    exact ⟨.inr hy, hfar⟩

theorem farFrom_insert_of_not_shown (hx : ¬ layout.Shown start 1 x) :
    farFrom layout start (insert x F) = insert x (farFrom layout start F) := by
  ext y
  constructor
  · rintro ⟨rfl | hy, hfar⟩
    · exact .inl rfl
    · exact .inr ⟨hy, hfar⟩
  · rintro (rfl | ⟨hy, hfar⟩)
    · exact ⟨.inl rfl, hx⟩
    · exact ⟨.inr hy, hfar⟩

variable (h : Kept layout start F c row) (hfirst : layout.FirstShown start x c.distance)
  (hrow : ∀ j, layout.indexBehind start x = some j → row j = c.distance + 1)

include h hfirst hrow

theorem Kept.rows_insert (y : Fin layout.verticeNum) (hy : y ∈ insert x F) (j : Fin layout.houseNum)
    (hj : layout.indexBehind start y = some j) : ∃ d, layout.FirstShown start y d ∧ row j = d + 1 := by
  obtain rfl | hy := hy
  · exact ⟨c.distance, hfirst, hrow j hj⟩
  · exact h.rows y hy j hj

omit hrow in
theorem Kept.shown_insert (y : Fin layout.verticeNum) (hy : y ∈ insert x F) :
    layout.Shown start c.distance y := by
  obtain rfl | hy := hy
  · exact hfirst.1
  · exact h.shown y hy

/-- A further house beyond level one becomes the farthest. -/
theorem Kept.book_most (hx : x ∉ F) (hflag : c.leastFlag = false) :
    Kept layout start (insert x F) { c with most := c.distance } row := by
  have hsome : (farFrom layout start F).Nonempty := by
    rw [Set.nonempty_iff_ne_empty]
    intro hempty
    exact Bool.false_ne_true (hflag.symm.trans (h.flag_iff.2 hempty))
  obtain ⟨y, hy⟩ := hsome
  have hle : c.least ≤ c.distance := h.least_le hflag y hy _ (h.shown y hy.1)
  have hge := h.least_ge hflag
  have hfar := hfirst.not_shown (show 1 < c.distance by omega)
  constructor
  case rows => exact h.rows_insert hfirst hrow
  case shown => exact h.shown_insert hfirst
  case flag_iff =>
    refine iff_of_false (by rw [hflag]; exact Bool.false_ne_true) ?_
    exact Set.Nonempty.ne_empty ⟨x, Set.mem_insert _ _, hfar⟩
  case near => exact fun htrue => absurd (hflag.symm.trans htrue) Bool.false_ne_true
  case least_ge => exact h.least_ge
  case least_le =>
    intro _ z hz d hd
    rw [farFrom_insert_of_not_shown hfar] at hz
    obtain rfl | hz := hz
    · exact hle.trans (hfirst.2 hd)
    · exact h.least_le hflag z hz d hd
  case most =>
    refine .inr ⟨fun hsub => hx ?_, h.shown_insert hfirst⟩
    rw [farFrom_insert_of_not_shown hfar] at hsub
    rw [hsub (Set.mem_insert x _) (Set.mem_insert_of_mem x hy)]
    exact hy.1

/-- The first house beyond level one is the nearest. -/
theorem Kept.book_least (hflag : c.leastFlag = true) (hlt : 1 < c.distance) :
    Kept layout start (insert x F) { c with least := c.distance, leastFlag := false } row := by
  have hempty := h.flag_iff.1 hflag
  have hfar := hfirst.not_shown hlt
  have hone : farFrom layout start (insert x F) = {x} := by
    rw [farFrom_insert_of_not_shown hfar, hempty, insert_empty_eq]
  constructor
  case rows => exact h.rows_insert hfirst hrow
  case shown => exact h.shown_insert hfirst
  case flag_iff =>
    rw [hone]
    exact iff_of_false Bool.false_ne_true (Set.singleton_ne_empty x)
  case near => exact fun htrue => absurd htrue Bool.false_ne_true
  case least_ge => exact fun _ => hlt
  case least_le =>
    intro _ z hz d hd
    rw [hone, Set.mem_singleton_iff] at hz
    subst hz
    exact hfirst.2 hd
  case most =>
    rw [hone]
    exact .inl ⟨(h.near hflag).2, Set.subsingleton_singleton⟩

/-- A house shown up to level one leaves the extremes alone. -/
theorem Kept.book_near (hflag : c.leastFlag = true) (hle : c.distance ≤ 1) :
    Kept layout start (insert x F) c row := by
  have hsame := farFrom_insert_of_shown (F := F) (hfirst.1.mono hle)
  have hempty := h.flag_iff.1 hflag
  constructor
  case rows => exact h.rows_insert hfirst hrow
  case shown => exact h.shown_insert hfirst
  case flag_iff =>
    rw [hsame]
    exact h.flag_iff
  case near => exact h.near
  case least_ge => exact h.least_ge
  case least_le =>
    rw [hsame]
    exact h.least_le
  case most =>
    rw [hsame, hempty]
    exact .inl ⟨(h.near hflag).2, Set.subsingleton_empty⟩

end Book

/-! ### The steps of a call -/

theorem Noted.relabel (h : Noted layout start m c) (pc : Pc layout.houseNum) (leastFlag : Bool)
    (least most sum : ℕ) :
    Noted layout start m
      { c with pc := pc, leastFlag := leastFlag, least := least, most := most, sum := sum } :=
  ⟨h.ordered.relabel pc _ _ leastFlag least most sum, h.found_iff, h.count_eq⟩

/-- The records do not depend on the other variables, and a later level keeps them. -/
theorem Kept.transport {F : Set (Fin layout.verticeNum)}
    {c' : Search layout.houseNum (Fin layout.verticeNum)} (h : Kept layout start F c row)
    (hdistance : c.distance ≤ c'.distance) (hflag : c'.leastFlag = c.leastFlag)
    (hleast : c'.least = c.least) (hmost : c'.most = c.most) : Kept layout start F c' row := by
  constructor
  case rows => exact h.rows
  case shown => exact fun x hx => (h.shown x hx).mono hdistance
  case flag_iff =>
    rw [hflag]
    exact h.flag_iff
  case near =>
    rw [hflag, hleast, hmost]
    exact h.near
  case least_ge =>
    rw [hflag, hleast]
    exact h.least_ge
  case least_le =>
    rw [hflag, hleast]
    exact h.least_le
  case most =>
    rw [hmost]
    exact h.most

/-- The call is about to visit the next vertex. -/
structure Visiting (layout : Layout) (start : Fin layout.houseNum)
    (c : Search layout.houseNum (Fin layout.verticeNum)) (row : Fin layout.houseNum → ℕ) : Prop where
  noted : Noted layout start c.i c
  unfinished : c.countEnd ≠ layout.houseNum
  kept : Kept layout start {x | c.visitHouse x = true} c row

/-- The vertex `u` has been looked at for a house, and what it showed is recorded. If that was the last
house the call looks for, `u` is the first vertex to show it. -/
structure Settled (layout : Layout) (start : Fin layout.houseNum) (u : Fin layout.verticeNum)
    (c : Search layout.houseNum (Fin layout.verticeNum)) (row : Fin layout.houseNum → ℕ) : Prop where
  noted : Noted layout start (c.i + 1) c
  current : c.searchArray[c.i]? = some u
  kept : Kept layout start {x | c.visitHouse x = true} c row
  last : c.countEnd = layout.houseNum → ∃ j, start < j ∧
    (layout.vertice u).house = some (layout.house j) ∧
      ∀ v ∈ c.before c.i, (layout.vertice v).house ≠ some (layout.house j)

/-- Every house behind the start is recorded with the level that shows it first. -/
def Complete (layout : Layout) (start : Fin layout.houseNum) (row : Fin layout.houseNum → ℕ) : Prop :=
  ∀ j, start < j → ∃ d, layout.FirstShown start (layout.house j) d ∧ row j = d + 1

/-- What holds of a call and of what it has written, by the step it is at. -/
def CallNotes (layout : Layout) (pruning : Bool) (start : Fin layout.houseNum)
    (c : Search layout.houseNum (Fin layout.verticeNum)) (row : Fin layout.houseNum → ℕ)
    (least most : ℕ) : Prop :=
  match c.pc with
  | .visit => Visiting layout start c row
  | .recordDistance j => ∃ u x, Showing layout start u x c ∧ layout.indexBehind start x = some j ∧
      Kept layout start ({y | c.visitHouse y = true} \ {x}) c row
  | .testIMax _ | .testDistance _ | .loadDistance _ | .loadIMax _ | .compareTotal _ =>
    pruning = true ∧ ∃ u, Settled layout start u c row
  | .compareMost => c.countEnd = layout.houseNum ∧ ∃ u, Settled layout start u c row
  | .storeTotal | .storeIMax =>
    (c.countEnd = layout.houseNum ∧ least = c.least + 1 ∧ most = c.most + 1) ∧
      ∃ u, Settled layout start u c row
  | .returned => pruning = false → Complete layout start row

theorem Settled.relabel (h : Settled layout start u c row) (pc : Pc layout.houseNum) (sum : ℕ) :
    Settled layout start u { c with pc := pc, sum := sum } row :=
  ⟨h.noted.relabel pc _ _ _ sum, h.current, h.kept.transport le_rfl rfl rfl rfl, h.last⟩

theorem Settled.complete (h : Settled layout start u c row) (hcount : c.countEnd = layout.houseNum) :
    Complete layout start row := fun j hj =>
  h.kept.rows _ (h.noted.all_found hcount hj).1 j (h.noted.all_found hcount hj).2

theorem Settled.expand (h : Settled layout start u c row) (hopen : c.countEnd ≠ layout.houseNum) :
    Visiting layout start (c.expand (layout.vertice u).adjacency) row where
  noted := by
    rw [expand_i]
    refine ⟨h.noted.ordered.expand h.current, fun x => ?_, ?_⟩
    · rw [before_expand (lt_length_of_getElem? h.current), expand_visitHouse]
      exact h.noted.found_iff x
    · rw [expand_countEnd, expand_visitHouse]
      exact h.noted.count_eq
  unfinished := by rwa [expand_countEnd]
  kept := by
    rw [expand_visitHouse]
    exact h.kept.transport (distance_le_expand _ c) (expand_leastFlag _ c) (expand_least _ c)
      (expand_most _ c)

theorem Settled.callNotes_checkEnd (h : Settled layout start u c row) {least most : ℕ} :
    CallNotes layout pruning start (c.checkEnd layout u) row least most := by
  rw [Search.checkEnd]
  split
  · rename_i hcount
    exact ⟨hcount, u, h.relabel .compareMost c.sum⟩
  · rename_i hcount
    exact h.expand hcount

/-- The house that is shown has been recorded. -/
theorem Showing.settled (h : Showing layout start u x c) (leastFlag : Bool) (least most : ℕ)
    (hkept : Kept layout start (insert x ({y | c.visitHouse y = true} \ {x}))
      { c with leastFlag := leastFlag, least := least, most := most } row) :
    Settled layout start u { c with leastFlag := leastFlag, least := least, most := most } row where
  noted := h.noted.relabel c.pc leastFlag least most c.sum
  current := h.current
  kept := by
    have hx : x ∈ {y | c.visitHouse y = true} := (h.noted.found_iff x).2
      ⟨u, (mem_before_succ h.current).2 (.inl rfl), h.slot⟩
    rwa [Set.insert_sdiff_singleton, Set.insert_eq_of_mem hx] at hkept
  last hcount := by
    obtain ⟨j, hj⟩ := Option.isSome_iff_exists.1 (h.counted hcount)
    obtain ⟨hlt, rfl⟩ := Layout.lt_of_indexBehind hj
    exact ⟨j, hlt, h.slot, h.unseen⟩

theorem Showing.callNotes_updateExtremes (h : Showing layout start u x c)
    (hkept : Kept layout start ({y | c.visitHouse y = true} \ {x}) c row)
    (hrow : ∀ j, layout.indexBehind start x = some j → row j = c.distance + 1) {least most : ℕ} :
    CallNotes layout pruning start (c.updateExtremes layout pruning u) row least most := by
  rw [Search.updateExtremes]
  split
  · rename_i hflag
    have hsettled := h.settled c.leastFlag c.least c.distance
      (hkept.book_most h.firstShown hrow (fun hmem => hmem.2 rfl) hflag)
    split
    · rename_i hpruning
      exact ⟨hpruning, u, hsettled.relabel _ c.sum⟩
    · exact hsettled.callNotes_checkEnd
  · rename_i hflag
    rw [Bool.not_eq_false] at hflag
    split
    · rename_i hlt
      exact (h.settled false c.distance c.most
        (hkept.book_least h.firstShown hrow hflag hlt)).callNotes_checkEnd
    · rename_i hle
      exact (h.settled c.leastFlag c.least c.most
        (hkept.book_near h.firstShown hrow hflag (not_lt.1 hle))).callNotes_checkEnd

/-- A visit that finds nothing new. -/
theorem Visiting.settled (h : Visiting layout start c row) (hu : c.searchArray[c.i]? = some u)
    (hold : ∀ x, (layout.vertice u).house = some x → c.visitHouse x = true) :
    Settled layout start u c row where
  noted := ⟨h.noted.ordered, found_iff_of_old h.noted.found_iff hu hold, h.noted.count_eq⟩
  current := hu
  kept := h.kept
  last hcount := absurd hcount h.unfinished

/-- The house in the slot of the visited vertex is new; it is counted if it is to be recorded. -/
theorem Visiting.showing (h : Visiting layout start c row) (hu : c.searchArray[c.i]? = some u)
    (hslot : (layout.vertice u).house = some x) (hnew : c.visitHouse x = false) {countEnd : ℕ}
    (hcount : countEnd = c.countEnd + if (layout.indexBehind start x).isSome then 1 else 0)
    (pc : Pc layout.houseNum) :
    Showing layout start u x
      { c with pc := pc, visitHouse := Function.update c.visitHouse x true, countEnd := countEnd } where
  noted := by
    refine ⟨h.noted.ordered.relabel pc _ _ _ _ _ _, found_iff_of_new h.noted.found_iff hu hslot, ?_⟩
    show countEnd = start.val + 1 + (foundFirst layout start (Function.update c.visitHouse x true)).card
    rw [foundFirst_update c.visitHouse hnew, hcount, h.noted.count_eq, Nat.add_assoc]
  current := hu
  slot := hslot
  unseen v hv hx := by
    have hfound := (h.noted.found_iff x).2 ⟨v, hv, hx⟩
    rw [hnew] at hfound
    exact Bool.false_ne_true hfound
  counted hend := by
    by_contra hnone
    rw [if_neg hnone, Nat.add_zero] at hcount
    exact h.unfinished (hcount.symm.trans hend)

theorem Visiting.callNotes_visit (h : Visiting layout start c row) (hu : c.searchArray[c.i]? = some u)
    {least most : ℕ} :
    CallNotes layout pruning start (c.visit layout pruning start u) row least most := by
  rw [Search.visit]
  split
  · rename_i hslot
    exact (h.settled hu fun x hx => absurd (hslot.symm.trans hx) (Option.some_ne_none x).symm).expand
      h.unfinished
  · rename_i x hslot
    split
    · rename_i hold
      refine (h.settled hu fun y hy => ?_).expand h.unfinished
      rw [hslot] at hy
      exact Option.some.inj hy ▸ hold
    · rename_i hnew
      rw [Bool.not_eq_true] at hnew
      have hkept : Kept layout start
          ({y | Function.update c.visitHouse x true y = true} \ {x}) c row := by
        have hset : {y | Function.update c.visitHouse x true y = true} \ {x} =
            {y | c.visitHouse y = true} := by
          ext y
          by_cases hy : y = x
          · subst hy
            simp [hnew]
          · simp [hy]
        rw [hset]
        exact h.kept
      rw [Search.findHouse]
      split
      · rename_i j hfind
        have hindex : layout.indexBehind start x = some j := hfind
        refine ⟨u, x, h.showing hu hslot hnew (by simp [hindex]) _, hindex, ?_⟩
        exact hkept.transport le_rfl rfl rfl rfl
      · rename_i hfind
        have hindex : layout.indexBehind start x = none := hfind
        have hcount : c.countEnd = c.countEnd + if (layout.indexBehind start x).isSome then 1 else 0 := by
          simp [hindex]
        have hshowing := h.showing hu hslot hnew hcount c.pc
        refine hshowing.callNotes_updateExtremes (hkept.transport le_rfl rfl rfl rfl) fun j hj => ?_
        rw [hindex] at hj
        cases hj

theorem Settled.callNotes_nextQ (h : Settled layout start u c row) (hpruning : pruning = true)
    (q : Fin layout.houseNum) {least most : ℕ} :
    CallNotes layout pruning start (c.nextQ layout u q) row least most := by
  rw [Search.nextQ]
  split
  · exact ⟨hpruning, u, h.relabel _ c.sum⟩
  · exact h.callNotes_checkEnd

/-- The distance of the house that is shown is written to the row. -/
theorem Kept.update_row {j : Fin layout.houseNum}
    (hkept : Kept layout start ({y | c.visitHouse y = true} \ {x}) c row)
    (hj : layout.indexBehind start x = some j) :
    Kept layout start ({y | c.visitHouse y = true} \ {x}) c
      (Function.update row j (c.distance + 1)) := by
  refine { hkept with rows := fun y hy k hk => ?_ }
  have hne : k ≠ j := by
    rintro rfl
    exact hy.2 ((Layout.lt_of_indexBehind hk).2.symm.trans (Layout.lt_of_indexBehind hj).2)
  rw [Function.update_of_ne hne]
  exact hkept.rows y hy k hk

/-! ### The calls together -/

variable {s : State layout.houseNum (Fin layout.verticeNum)} {trace : List (Fin layout.houseNum)}

def Notes (layout : Layout) (pruning : Bool) (s : State layout.houseNum (Fin layout.verticeNum))
    (start : Fin layout.houseNum) : Prop :=
  CallNotes layout pruning start (s.call start) (s.distanceToAll start) (s.distanceLeast start)
    (s.distanceMost start)

theorem notes_setCall_iff {s : State layout.houseNum (Fin layout.verticeNum)} :
    Notes layout pruning (s.setCall start c) start ↔
      CallNotes layout pruning start c (s.distanceToAll start) (s.distanceLeast start)
        (s.distanceMost start) := by
  rw [Notes, State.setCall_call_self]
  rfl

theorem notes_stepAt (h : Notes layout pruning s start)
    (hu : (s.call start).searchArray[(s.call start).i]? = some u) :
    Notes layout pruning (stepAt layout pruning s start (s.call start) u) start := by
  have hsame : ∀ {v}, Settled layout start v (s.call start) (s.distanceToAll start) →
      Settled layout start u (s.call start) (s.distanceToAll start) := by
    intro v hv
    rw [hv.current] at hu
    exact Option.some.inj hu ▸ hv
  rw [Notes, CallNotes] at h
  rw [stepAt]
  cases hpc : (s.call start).pc <;> rw [hpc] at h <;> dsimp only at h ⊢
  case visit => exact notes_setCall_iff.2 (h.callNotes_visit hu)
  case recordDistance j =>
    obtain ⟨v, x, hshowing, hindex, hkept⟩ := h
    rw [hshowing.current] at hu
    cases hu
    rw [notes_setCall_iff]
    dsimp only
    rw [Function.update_self]
    refine hshowing.callNotes_updateExtremes (hkept.update_row hindex) fun k hk => ?_
    rw [hindex] at hk
    cases hk
    exact Function.update_self _ _ _
  case testIMax q =>
    obtain ⟨hpruning, v, hsettled⟩ := h
    split
    · split
      · exact notes_setCall_iff.2 ⟨hpruning, v, hsettled.relabel _ _⟩
      · exact notes_setCall_iff.2 ((hsame hsettled).callNotes_nextQ hpruning q)
    · exact notes_setCall_iff.2 (hsame hsettled).callNotes_checkEnd
  case testDistance q =>
    obtain ⟨hpruning, v, hsettled⟩ := h
    split
    · exact notes_setCall_iff.2 ⟨hpruning, v, hsettled.relabel _ _⟩
    · exact notes_setCall_iff.2 ((hsame hsettled).callNotes_nextQ hpruning q)
  case loadDistance q =>
    obtain ⟨hpruning, v, hsettled⟩ := h
    exact notes_setCall_iff.2 ⟨hpruning, v, hsettled.relabel _ _⟩
  case loadIMax q =>
    obtain ⟨hpruning, v, hsettled⟩ := h
    exact notes_setCall_iff.2 ⟨hpruning, v, hsettled.relabel _ _⟩
  case compareTotal q =>
    obtain ⟨hpruning, v, hsettled⟩ := h
    split
    · exact notes_setCall_iff.2 fun hnot => absurd (hpruning.symm.trans hnot) Bool.noConfusion
    · exact notes_setCall_iff.2 ((hsame hsettled).callNotes_nextQ hpruning q)
  case compareMost =>
    obtain ⟨hcount, v, hsettled⟩ := h
    rw [notes_setCall_iff]
    dsimp only [State.setResult]
    rw [Function.update_self, Function.update_self]
    split
    · exact ⟨⟨hcount, rfl, rfl⟩, v, hsettled.relabel _ _⟩
    · exact ⟨⟨hcount, rfl, rfl⟩, v, hsettled.relabel _ _⟩
  case storeTotal =>
    obtain ⟨hresults, v, hsettled⟩ := h
    exact notes_setCall_iff.2 ⟨hresults, v, hsettled.relabel _ _⟩
  case storeIMax =>
    obtain ⟨hresults, v, hsettled⟩ := h
    exact notes_setCall_iff.2 fun _ => hsettled.complete hresults.1
  case returned =>
    rw [Notes, CallNotes, hpc]
    exact h

/-- A call writes only its own row and results. -/
theorem own_stepAt_of_ne {other : Fin layout.houseNum} (hne : start ≠ other) :
    (stepAt layout pruning s other c u).distanceToAll start = s.distanceToAll start ∧
      (stepAt layout pruning s other c u).distanceLeast start = s.distanceLeast start ∧
      (stepAt layout pruning s other c u).distanceMost start = s.distanceMost start := by
  have hresult : ∀ least most, (s.setResult other least most).distanceLeast start = s.distanceLeast start ∧
      (s.setResult other least most).distanceMost start = s.distanceMost start := fun least most =>
    ⟨Function.update_of_ne hne _ _, Function.update_of_ne hne _ _⟩
  rw [stepAt]
  split
  case h_2 => exact ⟨Function.update_of_ne hne _ _, rfl, rfl⟩
  case h_7 =>
    split
    · exact ⟨rfl, hresult _ _⟩
    · exact ⟨rfl, rfl, rfl⟩
  case h_8 => exact ⟨rfl, hresult _ _⟩
  all_goals
    (try split) <;> (try split) <;> exact ⟨rfl, rfl, rfl⟩

theorem notes_step {other : Fin layout.houseNum} {s' : State layout.houseNum (Fin layout.verticeNum)}
    (h : Notes layout pruning s start) (hstep : Step layout pruning s other s') :
    Notes layout pruning s' start := by
  obtain ⟨hen, rfl⟩ := hstep
  obtain ⟨u, hu, heq⟩ := exists_current pruning hen
  rw [heq]
  by_cases hne : start = other
  · subst hne
    exact notes_stepAt h hu
  · obtain ⟨hrow, hleast, hmost⟩ := own_stepAt_of_ne hne
    rw [Notes, call_stepAt_of_ne hne, hrow, hleast, hmost]
    exact h

theorem visiting_initialCall (hstart : IsStart layout start) (row : Fin layout.houseNum → ℕ) :
    Visiting layout start (initialCall layout start) row where
  noted := by
    refine ⟨ordered_initialCall, fun x => ?_, ?_⟩
    · simp [initialCall, Search.before]
    · simp [initialCall, foundFirst, Nat.add_comm]
  unfinished := by
    show 1 + start.val ≠ layout.houseNum
    rw [IsStart] at hstart
    omega
  kept := by
    have hnone : {x | (initialCall layout start).visitHouse x = true} = ∅ := by simp [initialCall]
    have hfar : farFrom layout start ∅ = ∅ := by simp [farFrom]
    rw [hnone]
    constructor
    case rows => exact fun x hx => absurd hx (Set.notMem_empty x)
    case shown => exact fun x hx => absurd hx (Set.notMem_empty x)
    case flag_iff => exact iff_of_true rfl hfar
    case near => exact fun _ => ⟨rfl, rfl⟩
    case least_ge => exact fun hflag => absurd hflag Bool.noConfusion
    case least_le => exact fun hflag => absurd hflag Bool.noConfusion
    case most =>
      rw [hfar]
      exact .inl ⟨rfl, Set.subsingleton_empty⟩

/-- The notes of a call hold in every run from a state in which it starts. -/
theorem notes_of_run {s₀ : State layout.houseNum (Fin layout.verticeNum)} (hstart : IsStart layout start)
    (hcall : s₀.call start = initialCall layout start)
    (hrun : Run (Step layout pruning) s₀ trace s) : Notes layout pruning s start := by
  apply hrun.invariant (P := fun _ s => Notes layout pruning s start)
  · rw [Notes, hcall]
    exact visiting_initialCall hstart _
  · intro trace s other s' _ h hstep
    exact notes_step h hstep

end Multicore.Houses
