import Multicore.Houses.Finds

/-!
# The extremes a call keeps

`least` is written when the first house at distance three or more is found, `most` with every later
one. `Tally` says what the two hold when the houses lie apart: the distance of the nearest house of
all, and of the last house found. For any placement of the houses neither can ever stand for the
distance two, and with two houses `most` is never written.
-/

namespace Multicore.Houses

variable {input : Input} {pruning : Bool} {start k : Fin input.houseNum} {u : Fin input.verticeNum}
  {c : Search input.houseNum (Fin input.verticeNum)}

/-- The houses other than its own that the call has found. -/
def Search.found (c : Search input.houseNum (Fin input.verticeNum)) (start : Fin input.houseNum) :
    Set (Fin input.houseNum) :=
  {k | k ≠ start ∧ c.visitHouse (input.house k) = true}

/-- For the houses `F` found so far, the extremes are those of the distances from the start. A first
house has no effect on `most`. -/
structure Tally (input : Input) (start : Fin input.houseNum) (F : Set (Fin input.houseNum))
    (c : Search input.houseNum (Fin input.verticeNum)) : Prop where
  flag_iff : c.leastFlag = true ↔ F = ∅
  least_le : F.Nonempty → ∀ k, k ≠ start → c.least + 1 ≤ input.houseDist start k
  least_mem : F.Nonempty → ∃ k ∈ F, c.least + 1 = input.houseDist start k
  most : (c.most = 0 ∧ F.Subsingleton) ∨
    (∃ k ∈ F, c.most + 1 = input.houseDist start k) ∧
      ∀ k ∈ F, input.houseDist start k ≤ c.most + 1

/-- What holds of the extremes wherever the houses are. -/
structure Sane {n : ℕ} {V : Type*} (c : Search n V) : Prop where
  flag_true : c.leastFlag = true → c.least = 0 ∧ c.most = 0
  flag_false : c.leastFlag = false → 2 ≤ c.least ∧ c.least ≤ c.distance
  most : c.most = 0 ∨ 2 ≤ c.most

/-- The call is about to visit the next vertex. -/
structure AtVisit (input : Input) (start : Fin input.houseNum)
    (c : Search input.houseNum (Fin input.verticeNum)) : Prop where
  levels : Levels input.graph (input.house start) c
  finds : Finds input start c.i c
  sane : Sane c
  unfinished : c.countEnd ≠ input.houseNum
  pair : input.houseNum = 2 → c.leastFlag = true
  tally : input.SpreadOut → Tally input start (c.found start) c

/-- The call has found the house `k` at the vertex `u` under visit; the extremes do not count it
yet. -/
structure Pending (input : Input) (start k : Fin input.houseNum) (u : Fin input.verticeNum)
    (c : Search input.houseNum (Fin input.verticeNum)) : Prop where
  levels : Levels input.graph (input.house start) c
  current : c.searchArray[c.i]? = some u
  finds : Finds input start (c.i + 1) c
  sane : Sane c
  slot : (input.vertice u).house = some (input.house k)
  unseen : ∀ v ∈ c.before c.i, (input.vertice v).house ≠ some (input.house k)
  pair : input.houseNum = 2 → c.leastFlag = true
  tally : input.SpreadOut → Tally input start (c.found start \ {k}) c

/-- The vertex `u` has been looked at for a house, and what it showed is counted. -/
structure Booked (input : Input) (start : Fin input.houseNum) (u : Fin input.verticeNum)
    (c : Search input.houseNum (Fin input.verticeNum)) : Prop where
  levels : Levels input.graph (input.house start) c
  current : c.searchArray[c.i]? = some u
  finds : Finds input start (c.i + 1) c
  sane : Sane c
  pair : input.houseNum = 2 → c.most = 0 ∧ (c.leastFlag = false → c.countEnd = input.houseNum)
  tally : input.SpreadOut → Tally input start (c.found start) c

/-- The invariant of one call, by the step it is at. -/
def CallInv (input : Input) (start : Fin input.houseNum)
    (c : Search input.houseNum (Fin input.verticeNum)) : Prop :=
  match c.pc with
  | .visit => AtVisit input start c
  | .recordDistance j => start < j ∧ ∃ u, Pending input start j u c
  | .testIMax _ | .testDistance _ | .loadDistance _ | .loadIMax _ | .compareTotal _ =>
    input.houseNum ≠ 2 ∧ c.leastFlag = false ∧ ∃ u, Booked input start u c
  | .compareMost | .storeTotal | .storeIMax =>
    c.countEnd = input.houseNum ∧ ∃ u, Booked input start u c
  | .returned => True

/-! ### Counting the house that was found -/

namespace Pending

theorem lt_length (h : Pending input start k u c) : c.i < c.searchArray.length :=
  lt_length_of_getElem? h.current

theorem visited (h : Pending input start k u c) : c.visitHouse (input.house k) = true :=
  (h.finds.visitHouse_iff _).2 ⟨u, ⟨c.i, Nat.lt_succ_self _, h.current⟩, h.slot⟩

/-- A house shows itself at the start and next to it only. -/
theorem distance_le_one (h : Pending input start start u c) : c.distance ≤ 1 := by
  rw [← h.levels.dist_current h.current, SimpleGraph.dist_comm]
  exact Layout.dist_slot_le h.slot

theorem houseDist_eq (h : Pending input start k u c) (hspread : input.SpreadOut) (hne : k ≠ start) :
    input.houseDist start k = c.distance + 1 :=
  le_antisymm (houseDist_le_of_found h.levels h.finds le_rfl h.lt_length h.visited)
    (le_houseDist_of_unseen hspread h.levels hne h.unseen)

theorem houseDist_le (h : Pending input start k u c) {j : Fin input.houseNum}
    (hj : j ∈ c.found start) : input.houseDist start j ≤ c.distance + 1 :=
  houseDist_le_of_found h.levels h.finds le_rfl h.lt_length hj.2

theorem le_houseDist (h : Pending input start k u c) (hspread : input.SpreadOut)
    {j : Fin input.houseNum} (hj : j ∉ c.found start) (hne : j ≠ start) :
    c.distance + 1 ≤ input.houseDist start j := by
  have hnot : c.visitHouse (input.house j) = false := Bool.eq_false_iff.2 fun hv => hj ⟨hne, hv⟩
  exact le_houseDist_of_unseen hspread h.levels hne
    (h.finds.unseen_of_not_found (Nat.le_succ _) hnot)

/-- Finding its own house tells the call nothing. -/
theorem tally_self (h : Pending input start start u c) (hspread : input.SpreadOut) :
    c.leastFlag = true ∧ Tally input start (c.found start) c := by
  have htally := h.tally hspread
  rw [Set.sdiff_singleton_eq_self fun hmem : start ∈ c.found start => hmem.1 rfl] at htally
  refine ⟨htally.flag_iff.2 ?_, htally⟩
  rw [Set.eq_empty_iff_forall_notMem]
  intro j hj
  have hfar := hspread.2 start j hj.1.symm
  have hnear := h.houseDist_le hj
  have hone := h.distance_le_one
  omega

end Pending

/-! ### Changes to variables an invariant does not mention -/

theorem Levels.relabel {n : ℕ} {V : Type*} {G : SimpleGraph V} {src : V} {c : Search n V}
    (h : Levels G src c) (pc : Pc n) (visitHouse : V → Bool) (countEnd : ℕ) (leastFlag : Bool)
    (least most sum : ℕ) :
    Levels G src
      { c with
        pc := pc, visitHouse := visitHouse, countEnd := countEnd, leastFlag := leastFlag
        least := least, most := most, sum := sum } :=
  ⟨h.explored, h.flag_iff, h.nodup, h.sorted, h.level_iff, h.ahead, h.length_eq, h.index⟩

theorem Finds.relabel {m : ℕ} (h : Finds input start m c) (pc : Pc input.houseNum)
    (leastFlag : Bool) (least most sum : ℕ) :
    Finds input start m
      { c with pc := pc, leastFlag := leastFlag, least := least, most := most, sum := sum } :=
  ⟨h.visitHouse_iff, h.countEnd_eq⟩

theorem Booked.relabel (h : Booked input start u c) (pc : Pc input.houseNum) (sum : ℕ) :
    Booked input start u { c with pc := pc, sum := sum } where
  levels := h.levels.relabel pc _ _ _ _ _ sum
  current := h.current
  finds := h.finds.relabel pc _ _ _ sum
  sane := ⟨h.sane.flag_true, h.sane.flag_false, h.sane.most⟩
  pair := h.pair
  tally hspread :=
    have htally := h.tally hspread
    ⟨htally.flag_iff, htally.least_le, htally.least_mem, htally.most⟩

/-! ### The steps of a call -/

/-- A call that goes on is about to visit the next vertex. -/
theorem Booked.expand (h : Booked input start u c) (hopen : c.countEnd ≠ input.houseNum) :
    AtVisit input start (c.expand (input.vertice u).adjacency) where
  levels := levels_expand h.levels input.connected h.current
    (fun _ hv => Layout.eq_or_adj_of_mem_adjacency hv) fun _ hv => Layout.mem_adjacency_of_adj hv
  finds := by
    rw [expand_i]
    exact h.finds.expand (lt_length_of_getElem? h.current) _
  sane := by
    have hmono := distance_le_expand (input.vertice u).adjacency c
    refine ⟨?_, ?_, ?_⟩
    · rw [expand_leastFlag, expand_least, expand_most]
      exact h.sane.flag_true
    · rw [expand_leastFlag, expand_least]
      exact fun hflag => ⟨(h.sane.flag_false hflag).1, (h.sane.flag_false hflag).2.trans hmono⟩
    · rw [expand_most]
      exact h.sane.most
  unfinished := by rwa [expand_countEnd]
  pair htwo := by
    rw [expand_leastFlag]
    by_contra hflag
    exact hopen ((h.pair htwo).2 (Bool.eq_false_iff.2 hflag))
  tally hspread := by
    have htally := h.tally hspread
    have hfound : (c.expand (input.vertice u).adjacency).found start = c.found start := by
      rw [Search.found, expand_visitHouse, Search.found]
    rw [hfound]
    refine ⟨?_, ?_, ?_, ?_⟩
    · rw [expand_leastFlag]
      exact htally.flag_iff
    · rw [expand_least]
      exact htally.least_le
    · rw [expand_least]
      exact htally.least_mem
    · rw [expand_most]
      exact htally.most

theorem Booked.callInv_checkEnd (h : Booked input start u c) :
    CallInv input start (c.checkEnd input u) := by
  rw [Search.checkEnd]
  split
  · rename_i hcount
    exact ⟨hcount, u, h.relabel .compareMost c.sum⟩
  · rename_i hcount
    exact h.expand hcount

/-- A house found after the first one becomes the farthest. -/
theorem Pending.booked_most (h : Pending input start k u c) (hflag : c.leastFlag = false) :
    Booked input start u { c with most := c.distance } where
  levels := h.levels.relabel _ _ _ _ _ c.distance _
  current := h.current
  finds := h.finds.relabel _ _ _ c.distance _
  sane := by
    have hleast := h.sane.flag_false hflag
    exact ⟨fun htrue => absurd htrue (by rw [hflag]; exact Bool.false_ne_true), h.sane.flag_false,
      .inr (hleast.1.trans hleast.2)⟩
  pair htwo := absurd (h.pair htwo) (by rw [hflag]; exact Bool.false_ne_true)
  tally hspread := by
    have htally := h.tally hspread
    have hbefore : (c.found start \ {k}).Nonempty := by
      rw [Set.nonempty_iff_ne_empty]
      intro hempty
      exact Bool.false_ne_true (hflag.symm.trans (htally.flag_iff.2 hempty))
    have hne : k ≠ start := by
      rintro rfl
      exact Bool.false_ne_true (hflag.symm.trans (h.tally_self hspread).1)
    have hk : k ∈ c.found start := ⟨hne, h.visited⟩
    refine ⟨iff_of_false (by rw [hflag]; exact Bool.false_ne_true) (Set.Nonempty.ne_empty ⟨k, hk⟩),
      fun _ => htally.least_le hbefore, fun _ => ?_, .inr ⟨⟨k, hk, ?_⟩, fun j hj => ?_⟩⟩
    · obtain ⟨j, hj, heq⟩ := htally.least_mem hbefore
      exact ⟨j, hj.1, heq⟩
    · exact (h.houseDist_eq hspread hne).symm
    · exact h.houseDist_le hj

/-- The first house at distance three or more is the nearest. -/
theorem Pending.booked_least (h : Pending input start k u c) (hstart : IsStart input start)
    (hflag : c.leastFlag = true) (hfar : 1 < c.distance) :
    Booked input start u { c with least := c.distance, leastFlag := false } := by
  have hne : k ≠ start := by
    rintro rfl
    have hone := h.distance_le_one
    omega
  have hmost : c.most = 0 := (h.sane.flag_true hflag).2
  constructor
  case levels => exact h.levels.relabel _ _ _ false c.distance _ _
  case current => exact h.current
  case finds => exact h.finds.relabel _ false c.distance _ _
  case sane => exact ⟨fun htrue => absurd htrue Bool.false_ne_true, fun _ => ⟨hfar, le_rfl⟩, h.sane.most⟩
  case pair =>
    -- with two houses the one found is the only one behind the start
    refine fun htwo => ⟨hmost, fun _ => h.finds.countEnd_eq_iff.2 fun j hj => ?_⟩
    have hjk : j = k := by
      rw [IsStart] at hstart
      rw [Fin.lt_def] at hj
      rw [ne_eq, Fin.ext_iff] at hne
      apply Fin.ext
      omega
    rw [hjk]
    exact h.visited
  case tally =>
    intro hspread
    have hempty := (h.tally hspread).flag_iff.1 hflag
    have honly : ∀ j ∈ c.found start, j = k := by
      intro j hj
      by_contra hjk
      exact Set.notMem_empty j (hempty ▸ ⟨hj, hjk⟩)
    have hk : k ∈ c.found start := ⟨hne, h.visited⟩
    have heq := h.houseDist_eq hspread hne
    refine ⟨iff_of_false Bool.false_ne_true (Set.Nonempty.ne_empty ⟨k, hk⟩), fun _ j hj => ?_,
      fun _ => ⟨k, hk, heq.symm⟩, .inl ⟨hmost, fun a ha b hb => (honly a ha).trans (honly b hb).symm⟩⟩
    show c.distance + 1 ≤ input.houseDist start j
    by_cases hjk : j = k
    · rw [hjk, heq]
    · exact h.le_houseDist hspread (fun hmem => hjk (honly j hmem)) hj

/-- A house found next to the start leaves the extremes alone. -/
theorem Pending.booked_near (h : Pending input start k u c) (hflag : c.leastFlag = true)
    (hnear : c.distance ≤ 1) : Booked input start u c where
  levels := h.levels
  current := h.current
  finds := h.finds
  sane := h.sane
  pair _ := ⟨(h.sane.flag_true hflag).2, fun hfalse => absurd (hflag.symm.trans hfalse) Bool.noConfusion⟩
  tally hspread := by
    by_cases hk : k = start
    · subst hk
      exact (h.tally_self hspread).2
    · have hdist := h.houseDist_eq hspread hk
      have hfar := hspread.2 start k (Ne.symm hk)
      omega

theorem Pending.callInv_updateExtremes (h : Pending input start k u c) (hstart : IsStart input start) :
    CallInv input start (c.updateExtremes input pruning u) := by
  rw [Search.updateExtremes]
  split
  · rename_i hflag
    have hbooked := h.booked_most hflag
    have htwo : input.houseNum ≠ 2 := by
      intro htwo
      rw [h.pair htwo] at hflag
      exact Bool.noConfusion hflag
    split
    · exact ⟨htwo, hflag, u, hbooked.relabel _ c.sum⟩
    · exact hbooked.callInv_checkEnd
  · rename_i hflag
    rw [Bool.not_eq_false] at hflag
    split
    · rename_i hfar
      exact (h.booked_least hstart hflag hfar).callInv_checkEnd
    · rename_i hnear
      exact (h.booked_near hflag (not_lt.1 hnear)).callInv_checkEnd

theorem AtVisit.booked (h : AtVisit input start c) (hu : c.searchArray[c.i]? = some u)
    (hold : ∀ h, (input.vertice u).house = some h → c.visitHouse h = true) :
    Booked input start u c where
  levels := h.levels
  current := hu
  finds := h.finds.skip hu hold
  sane := h.sane
  pair htwo := ⟨(h.sane.flag_true (h.pair htwo)).2,
    fun hfalse => absurd ((h.pair htwo).symm.trans hfalse) Bool.noConfusion⟩
  tally := h.tally

/-- The house in the slot of the visited vertex is new; `countEnd` counts it if it lies behind the
start. -/
theorem AtVisit.pending (h : AtVisit input start c) (hu : c.searchArray[c.i]? = some u)
    (hslot : (input.vertice u).house = some (input.house k))
    (hnew : c.visitHouse (input.house k) = false) {countEnd : ℕ}
    (hcount : countEnd = if start < k then c.countEnd + 1 else c.countEnd) (pc : Pc input.houseNum) :
    Pending input start k u
      { c with
        pc := pc, visitHouse := Function.update c.visitHouse (input.house k) true
        countEnd := countEnd } where
  levels := h.levels.relabel pc _ _ _ _ _ _
  current := hu
  finds := by
    refine ⟨found_iff_of_new h.finds.visitHouse_iff hu hslot, ?_⟩
    show countEnd = start.val + 1 +
      (foundBehind input start (Function.update c.visitHouse (input.house k) true)).card
    have hold := h.finds.countEnd_eq
    split at hcount
    · rename_i hk
      rw [foundBehind_update hk hnew]
      omega
    · rename_i hk
      have hnone : ∀ j, start < j → input.house j ≠ input.house k := by
        intro j hj heq
        rw [input.house_injective heq] at hj
        exact hk hj
      rw [foundBehind_update_of_not_behind hnone]
      omega
  sane := ⟨h.sane.flag_true, h.sane.flag_false, h.sane.most⟩
  slot := hslot
  unseen := h.finds.unseen_of_not_found le_rfl hnew
  pair := h.pair
  tally hspread := by
    have htally := h.tally hspread
    have hfound : {j | j ≠ start ∧
        Function.update c.visitHouse (input.house k) true (input.house j) = true} \ {k} =
        c.found start := by
      ext j
      by_cases hj : j = k
      · subst hj
        simp [Search.found, hnew]
      · have hne : input.house j ≠ input.house k := fun heq => hj (input.house_injective heq)
        simp [Search.found, hj, Function.update_of_ne hne]
    refine ⟨?_, ?_, ?_, ?_⟩
    all_goals rw [Search.found, hfound]
    · exact htally.flag_iff
    · exact htally.least_le
    · exact htally.least_mem
    · exact htally.most

theorem AtVisit.callInv_findHouse (h : AtVisit input start c) (hstart : IsStart input start)
    (hu : c.searchArray[c.i]? = some u) (hslot : (input.vertice u).house = some (input.house k))
    (hnew : c.visitHouse (input.house k) = false) :
    CallInv input start (c.findHouse input pruning start u (input.house k)) := by
  rw [Search.findHouse]
  split
  · rename_i j hfind
    have hj := List.find?_some hfind
    rw [decide_eq_true_eq] at hj
    have hjk : j = k := input.house_injective hj.2
    subst hjk
    exact ⟨hj.1, u, h.pending hu hslot hnew (if_pos hj.1).symm _⟩
  · rename_i hnone
    have hbehind : ¬ start < k := by
      intro hlt
      have hnot := List.find?_eq_none.1 hnone k (List.mem_finRange k)
      rw [decide_eq_true_eq] at hnot
      exact hnot ⟨hlt, rfl⟩
    exact (h.pending hu hslot hnew (if_neg hbehind).symm c.pc).callInv_updateExtremes hstart

theorem AtVisit.callInv_visit (h : AtVisit input start c) (hstart : IsStart input start)
    (hu : c.searchArray[c.i]? = some u) :
    CallInv input start (c.visit input pruning start u) := by
  rw [Search.visit]
  split
  · rename_i hslot
    have hbooked := h.booked hu fun x hx => absurd (hslot.symm.trans hx) (Option.some_ne_none x).symm
    exact hbooked.expand h.unfinished
  · rename_i x hslot
    split
    · rename_i hold
      have hbooked := h.booked hu fun y hy => by
        rw [hslot] at hy
        exact Option.some.inj hy ▸ hold
      exact hbooked.expand h.unfinished
    · rename_i hnew
      obtain ⟨k, rfl⟩ := Layout.exists_house_of_slot hslot
      exact h.callInv_findHouse hstart hu hslot (Bool.eq_false_iff.2 hnew)

theorem Booked.callInv_nextQ (h : Booked input start u c) (htwo : input.houseNum ≠ 2)
    (hflag : c.leastFlag = false) (q : Fin input.houseNum) :
    CallInv input start (c.nextQ input u q) := by
  rw [Search.nextQ]
  split
  · exact ⟨htwo, hflag, u, h.relabel _ c.sum⟩
  · exact h.callInv_checkEnd

end Multicore.Houses
