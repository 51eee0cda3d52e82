import Mathlib.Data.Fin.VecNotation
import Mathlib.Data.Fintype.Prod
import Multicore.Base.Extreme
import Multicore.Houses.Termination

/-!
# What `Project1.cpp` prints

With at least three houses, any two of them at least three roads apart, every interleaving of the
calls ends, and the printed numbers are the least and the greatest distance of two houses. The early
return plays no part in that. Without this condition the program is wrong unless two houses are
neighbours: it never prints the distance two, and with two houses it prints one as the greatest
distance.
-/

namespace Multicore.Houses

variable {input : Input} {pruning : Bool} {s : State input.houseNum (Fin input.verticeNum)}
  {trace : List (Fin input.houseNum)}

/-! ### The aggregation -/

theorem isLeast_aggregateLeast (s : State input.houseNum (Fin input.verticeNum)) :
    IsLeast (insert intMax (s.distanceLeast '' {i | i ∈ starts input})) (aggregateLeast input s) := by
  have hstep : (fun least i => if s.distanceLeast i ≤ least then s.distanceLeast i else least) =
      fun least i => min least (s.distanceLeast i) := by
    funext least i
    rw [min_comm, min_def]
  rw [aggregateLeast, hstep]
  exact isLeast_foldl_min s.distanceLeast (starts input) intMax

theorem isGreatest_aggregateMost (s : State input.houseNum (Fin input.verticeNum)) :
    IsGreatest (insert 0 (s.distanceMost '' {i | i ∈ starts input})) (aggregateMost input s) := by
  have hstep : (fun most i => if most ≤ s.distanceMost i then s.distanceMost i else most) =
      fun most i => max most (s.distanceMost i) := by
    funext most i
    rw [max_def]
  rw [aggregateMost, hstep]
  exact isGreatest_foldl_max s.distanceMost (starts input) 0

theorem aggregateLeast_le {i : Fin input.houseNum} (hi : IsStart input i) :
    aggregateLeast input s ≤ s.distanceLeast i :=
  (isLeast_aggregateLeast s).2 (.inr ⟨i, mem_starts.2 hi, rfl⟩)

theorem le_aggregateMost {i : Fin input.houseNum} (hi : IsStart input i) :
    s.distanceMost i ≤ aggregateMost input s :=
  (isGreatest_aggregateMost s).2 (.inr ⟨i, mem_starts.2 hi, rfl⟩)

theorem isStart_of_lt {i j : Fin input.houseNum} (hlt : i < j) : IsStart input i :=
  (Nat.succ_le_of_lt hlt).trans_lt j.isLt

theorem isStart_firstHouse : IsStart input input.firstHouse := input.two_le_houseNum

theorem stored_of_returned (h : Inv input s) (hall : AllReturned input s) {i : Fin input.houseNum}
    (hi : IsStart input i) : Stored input i (s.distanceLeast i) (s.distanceMost i) :=
  h.stored i (by rw [hall i hi]; rfl)

/-! ### The right answer when the houses lie apart -/

/-- Some pair of houses is at the greatest distance. -/
theorem exists_farthest (input : Input) :
    ∃ a b : Fin input.houseNum, a < b ∧ ∀ i j, i < j → input.houseDist i j ≤ input.houseDist a b := by
  have hpair : input.firstHouse < ⟨1, input.two_le_houseNum⟩ := Nat.zero_lt_one
  obtain ⟨⟨a, b⟩, hmem, hmax⟩ := Finset.exists_max_image
    (Finset.univ.filter fun p : Fin input.houseNum × Fin input.houseNum => p.1 < p.2)
    (fun p => input.houseDist p.1 p.2) ⟨(_, _), Finset.mem_filter.2 ⟨Finset.mem_univ _, hpair⟩⟩
  refine ⟨a, b, (Finset.mem_filter.1 hmem).2, fun i j hij => ?_⟩
  exact hmax (i, j) (Finset.mem_filter.2 ⟨Finset.mem_univ _, hij⟩)

theorem isLeast_of_returned (hspread : input.SpreadOut) (h : Inv input s)
    (hall : AllReturned input s) : IsLeast input.pairDistances (aggregateLeast input s) := by
  have hresult : ∀ i, IsStart input i → Result input i (s.distanceLeast i) (s.distanceMost i) :=
    fun i hi => (stored_of_returned h hall hi).result hspread
  constructor
  · obtain hmax | ⟨i, hi, heq⟩ := (isLeast_aggregateLeast s).1
    · -- the initial value is as large as any distance, so it is one of the results
      obtain ⟨k, hk, hfirst⟩ := (hresult _ isStart_firstHouse).least_mem
      have hle : aggregateLeast input s ≤ s.distanceLeast input.firstHouse :=
        aggregateLeast_le isStart_firstHouse
      have hbound := Input.houseDist_le_intMax input.firstHouse k
      have heq : aggregateLeast input s = input.houseDist input.firstHouse k := by omega
      rw [heq]
      exact mem_pairDistances hk.symm
    · obtain ⟨k, hk, hleast⟩ := (hresult i (mem_starts.1 hi)).least_mem
      rw [← heq, hleast]
      exact mem_pairDistances hk.symm
  · rintro d ⟨i, j, hij, rfl⟩
    exact (aggregateLeast_le (isStart_of_lt hij)).trans
      ((hresult i (isStart_of_lt hij)).least_le j hij.ne')

/-- The farthest pair is covered by the call for its first house, or by the call for the first house
of all. -/
theorem farthest_le_aggregateMost (hspread : input.SpreadOut) (h : Inv input s)
    (hall : AllReturned input s) {a b : Fin input.houseNum} (hab : a < b)
    (hmax : ∀ i j, i < j → input.houseDist i j ≤ input.houseDist a b) :
    input.houseDist a b ≤ aggregateMost input s := by
  have hresult : ∀ i, IsStart input i → Result input i (s.distanceLeast i) (s.distanceMost i) :=
    fun i hi => (stored_of_returned h hall hi).result hspread
  have hnotfar : ∀ d ∈ input.pairDistances, ¬ input.houseDist a b < d := by
    rintro d ⟨i, j, hij, rfl⟩
    exact not_lt.2 (hmax i j hij)
  obtain hcovers | ⟨d, hd, hfar⟩ | ⟨hlast, hnear⟩ := (hresult a (isStart_of_lt hab)).covers
  · exact (hcovers b hab).trans (le_aggregateMost (isStart_of_lt hab))
  · exact absurd (hfar b hab) (hnotfar d hd)
  · -- the last call stopped at the nearest house, so all its distances are the greatest one
    have hthree := hspread.1
    have hfirst : input.firstHouse < a := by
      rw [Fin.lt_def]
      show 0 < a.val
      omega
    have heq : input.houseDist a b ≤ input.houseDist input.firstHouse a := by
      rw [Layout.houseDist_comm input.firstHouse a]
      exact hnear b hab input.firstHouse hfirst.ne
    obtain hcovers | ⟨d, hd, hfar⟩ | ⟨htwo, -⟩ := (hresult _ isStart_firstHouse).covers
    · exact heq.trans ((hcovers a hfirst).trans (le_aggregateMost isStart_firstHouse))
    · exact absurd (heq.trans_lt (hfar a hfirst)) (hnotfar d hd)
    · have hzero : input.firstHouse.val = 0 := rfl
      omega

theorem isGreatest_of_returned (hspread : input.SpreadOut) (h : Inv input s)
    (hall : AllReturned input s) : IsGreatest input.pairDistances (aggregateMost input s) := by
  obtain ⟨a, b, hab, hmax⟩ := exists_farthest input
  have hge := farthest_le_aggregateMost hspread h hall hab hmax
  have hle : aggregateMost input s ≤ input.houseDist a b := by
    have hpos : 0 < input.houseDist a b := Input.houseDist_pos hab.ne
    obtain hzero | ⟨i, hi, heq⟩ := (isGreatest_aggregateMost s).1
    · omega
    · have hstart := mem_starts.1 hi
      obtain hone | ⟨k, hk, hmost⟩ :=
        ((stored_of_returned h hall hstart).result hspread).most_mem
      · omega
      · rw [← heq, hmost]
        obtain ⟨x, y, hxy, hdist⟩ := mem_pairDistances hk.symm
        rw [hdist]
        exact hmax x y hxy
  have heq : aggregateMost input s = input.houseDist a b := le_antisymm hle hge
  rw [heq]
  exact ⟨⟨a, b, hab, rfl⟩, fun d ⟨i, j, hij, hd⟩ => hd ▸ hmax i j hij⟩

theorem rightAnswer_of_returned (hspread : input.SpreadOut) (h : Inv input s)
    (hall : AllReturned input s) : RightAnswer input s :=
  ⟨isLeast_of_returned hspread h hall, isGreatest_of_returned hspread h hall⟩

/-- Every interleaving of the calls ends with the right answer, and the program without the early
return ends with the same numbers. -/
theorem pruning_changes_no_answer (hspread : input.SpreadOut)
    (hrun : Run (Step input pruning) (initial input) trace s) :
    trace.length ≤ work input (initial input) ∧
      (¬ AllReturned input s → ∃ start s', Step input pruning s start s') ∧
      (AllReturned input s → RightAnswer input s ∧
        ∀ pruning' trace' s', Run (Step input pruning') (initial input) trace' s' →
          AllReturned input s' → aggregateLeast input s = aggregateLeast input s' ∧
            aggregateMost input s = aggregateMost input s') := by
  have hinv := inv_of_run hrun
  refine ⟨length_le_work hrun, fun hnot => ?_, fun hall => ?_⟩
  · rw [AllReturned, not_forall] at hnot
    obtain ⟨start, hstart⟩ := hnot
    rw [Classical.not_imp] at hstart
    exact ⟨start, _, enabled_of_not_returned hspread hinv hstart.1 hstart.2, rfl⟩
  · have hright := rightAnswer_of_returned hspread hinv hall
    refine ⟨hright, fun pruning' trace' s' hrun' hall' => ?_⟩
    have hright' := rightAnswer_of_returned hspread (inv_of_run hrun') hall'
    exact ⟨hright.1.unique hright'.1, hright.2.unique hright'.2⟩

/-- Seven vertices in a row with houses at both ends and in the middle. -/
def sevenInRow : Input where
  verticeNum := 7
  houseNum := 3
  house := ![0, 3, 6]
  edges := [(0, 1), (1, 2), (2, 3), (3, 4), (4, 5), (5, 6)]
  verticeNum_le := by decide
  two_le_houseNum := by decide
  house_injective := by decide
  degree_pos := by decide
  degree_le := by decide
  connected := connected_of_descent 0 Fin.val (by decide)

theorem spreadOut_sevenInRow : sevenInRow.SpreadOut := by
  have hrow : ∀ u v : Fin 7, v.val ≤ u.val + sevenInRow.graph.dist u v :=
    fun u v => le_add_dist sevenInRow.connected Fin.val (by decide)
  have happart : ∀ i j : Fin 3, i ≠ j →
      (sevenInRow.house i).val + 3 ≤ (sevenInRow.house j).val ∨
        (sevenInRow.house j).val + 3 ≤ (sevenInRow.house i).val := by
    decide
  refine ⟨le_rfl, fun i j hne => ?_⟩
  have hij := hrow (sevenInRow.house i) (sevenInRow.house j)
  have hji := hrow (sevenInRow.house j) (sevenInRow.house i)
  rw [SimpleGraph.dist_comm] at hji
  rw [Layout.houseDist]
  obtain hlt | hlt := happart i j hne
  · omega
  · omega

/-- The two calls take turns until the second returns. -/
def takingTurns : List (Fin sevenInRow.houseNum) :=
  ([0, 1, 0, 1, 0, 1, 0, 1, 0, 1, 0, 1, 0, 1, 0, 1, 0, 1, 0, 1, 0, 1, 0, 1, 0, 0] : List (Fin 3))

theorem run_takingTurns :
    Run (Step sevenInRow true) (initial sevenInRow) takingTurns.reverse
      (execute (effect sevenInRow true) (initial sevenInRow) takingTurns) :=
  run_execute (by decide +kernel)

theorem pruning_changes_no_answer_sevenInRow :
    RightAnswer sevenInRow (execute (effect sevenInRow true) (initial sevenInRow) takingTurns) :=
  ((pruning_changes_no_answer spreadOut_sevenInRow run_takingTurns).2.2 (by decide +kernel)).1

/-! ### One call after another -/

/-- The calls of `Search` in turn all return, and `main` prints the right numbers. -/
def SolvedInTurn (input : Input) : Prop :=
  ∃ fuel, AllReturned input (searchInTurn input true fuel) ∧
    RightAnswer input (searchInTurn input true fuel)

/-- The distance two is never printed. -/
theorem aggregate_ne_two (h : Inv input s) (hall : AllReturned input s) :
    aggregateLeast input s ≠ 2 ∧ aggregateMost input s ≠ 2 := by
  constructor
  · obtain heq | ⟨i, hi, heq⟩ := (isLeast_aggregateLeast s).1
    · rw [heq]
      decide
    · rw [← heq]
      exact (stored_of_returned h hall (mem_starts.1 hi)).least_ne_two
  · obtain heq | ⟨i, hi, heq⟩ := (isGreatest_aggregateMost s).1
    · rw [heq]
      decide
    · rw [← heq]
      exact (stored_of_returned h hall (mem_starts.1 hi)).most_ne_two

theorem aggregateMost_le_one (h : Inv input s) (hall : AllReturned input s)
    (htwo : input.houseNum = 2) : aggregateMost input s ≤ 1 := by
  obtain heq | ⟨i, hi, heq⟩ := (isGreatest_aggregateMost s).1
  · rw [heq]
    exact Nat.zero_le 1
  · rw [← heq, (stored_of_returned h hall (mem_starts.1 hi)).pair htwo]

theorem adj_of_houseDist_le_one {i j : Fin input.houseNum} (hne : i ≠ j)
    (hle : input.houseDist i j ≤ 1) : input.graph.Adj (input.house i) (input.house j) := by
  have hpos : 0 < input.houseDist i j := Input.houseDist_pos hne
  exact SimpleGraph.dist_eq_one_iff_adj.1 (le_antisymm hle hpos)

/-- A right answer for houses that are too near each other needs two neighbouring houses. -/
theorem adj_of_solvedInTurn (hsolved : SolvedInTurn input) (hnear : ¬ input.SpreadOut) :
    ∃ i j, i < j ∧ input.graph.Adj (input.house i) (input.house j) := by
  obtain ⟨fuel, hall, hleast, hmost⟩ := hsolved
  obtain ⟨trace, hrun⟩ := run_searchInTurn input true fuel
  have hinv := inv_of_run hrun
  by_cases htwo : input.houseNum = 2
  · obtain ⟨i, j, hij, heq⟩ := hmost.1
    have hle := aggregateMost_le_one hinv hall htwo
    exact ⟨i, j, hij, adj_of_houseDist_le_one hij.ne (heq ▸ hle)⟩
  · have hnum := input.two_le_houseNum
    have hpair : ∃ i j, i ≠ j ∧ input.houseDist i j ≤ 2 := by
      by_contra hfar
      refine hnear ⟨by omega, fun i j hne => ?_⟩
      by_contra hlt
      exact hfar ⟨i, j, hne, by omega⟩
    obtain ⟨a, b, hab, hdist⟩ := hpair
    have hle := hleast.2 (mem_pairDistances hab)
    have hne := (aggregate_ne_two hinv hall).1
    obtain ⟨i, j, hij, heq⟩ := hleast.1
    exact ⟨i, j, hij, adj_of_houseDist_le_one hij.ne (by omega)⟩

/-- The calls in turn print the right numbers when the houses lie apart, and for no other placement
in which no two houses are neighbours. -/
theorem solvedInTurn_iff (input : Input) :
    (input.SpreadOut → SolvedInTurn input) ∧
      (SolvedInTurn input → input.SpreadOut ∨
        (∃ i j, i < j ∧ input.graph.Adj (input.house i) (input.house j)) ∧
          ¬ IsGreatest input.pairDistances 2) := by
  refine ⟨fun hspread => ?_, fun hsolved => ?_⟩
  · obtain ⟨fuel, hall⟩ := exists_allReturned hspread true
    obtain ⟨trace, hrun⟩ := run_searchInTurn input true fuel
    exact ⟨fuel, hall, rightAnswer_of_returned hspread (inv_of_run hrun) hall⟩
  · by_cases hspread : input.SpreadOut
    · exact .inl hspread
    · refine .inr ⟨adj_of_solvedInTurn hsolved hspread, fun hgreatest => ?_⟩
      obtain ⟨fuel, hall, -, hmost⟩ := hsolved
      obtain ⟨trace, hrun⟩ := run_searchInTurn input true fuel
      exact (aggregate_ne_two (inv_of_run hrun) hall).2 (hmost.unique hgreatest)

theorem solvedInTurn_sevenInRow : SolvedInTurn sevenInRow :=
  (solvedInTurn_iff sevenInRow).1 spreadOut_sevenInRow

/-- Four vertices in a row with houses at both ends. -/
def fourInRow : Input where
  verticeNum := 4
  houseNum := 2
  house := ![0, 3]
  edges := [(0, 1), (1, 2), (2, 3)]
  verticeNum_le := by decide
  two_le_houseNum := by decide
  house_injective := by decide
  degree_pos := by decide
  degree_le := by decide
  connected := connected_of_descent 0 Fin.val (by decide)

/-- The only two houses are three roads apart, and `1` is printed as the greatest distance. -/
theorem fourInRow_not_solved :
    AllReturned fourInRow (searchInTurn fourInRow true 20) ∧
      aggregateLeast fourInRow (searchInTurn fourInRow true 20) = 3 ∧
      aggregateMost fourInRow (searchInTurn fourInRow true 20) = 1 ∧ ¬ SolvedInTurn fourInRow := by
  refine ⟨by decide +kernel, by decide +kernel, by decide +kernel, fun hsolved => ?_⟩
  have hnear : ¬ fourInRow.SpreadOut := fun hspread => absurd hspread.1 (by decide)
  obtain ⟨i, j, hij, hadj⟩ := adj_of_solvedInTurn hsolved hnear
  have hfree : ∀ i j : Fin fourInRow.houseNum, i < j →
      ¬ (edgeGraph fourInRow.edges).Adj (fourInRow.house i) (fourInRow.house j) := by
    decide
  exact hfree i j hij hadj

end Multicore.Houses
