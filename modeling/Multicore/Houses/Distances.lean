import Multicore.Houses.Answer
import Multicore.Houses.Records

/-!
# Whether a call finds every house at its distance

Without the early return a call leaves its loop only when it has counted every house behind its start.
It finds a house through the slots of the vertices next to it, and a slot keeps one house only. So it
records the right distances just if every house behind the start is in the slot of a vertex one road
nearer. A house that is in no slot at all sends the call past the end of its search array.
-/

namespace Multicore.Houses

variable {input : Input} {pruning : Bool} {start j : Fin input.houseNum} {u v : Fin input.verticeNum}
  {d : ℕ} {c : Search input.houseNum (Fin input.verticeNum)} {row : Fin input.houseNum → ℕ}
  {s : State input.houseNum (Fin input.verticeNum)}

/-- The call for `start`, without the early return, returns and has recorded the distance of every
house behind its start. -/
def FindsAll (input : Input) (s : State input.houseNum (Fin input.verticeNum))
    (start : Fin input.houseNum) : Prop :=
  ∃ fuel, ((runSearch input false fuel s start).call start).pc = .returned ∧
    ∀ j, start < j → (runSearch input false fuel s start).distanceToAll start j = input.houseDist start j

/-- Every house behind the start is in the slot of a vertex one road nearer to the start. -/
def Input.ShownNearer (input : Input) (start : Fin input.houseNum) : Prop :=
  ∀ j, start < j → ∃ u, input.graph.dist (input.house start) u + 1 = input.houseDist start j ∧
    (input.vertice u).house = some (input.house j)

/-! ### Levels and distances -/

theorem mem_reached_iff :
    v ∈ input.reached start d ↔ input.graph.dist (input.house start) v ≤ d := by
  rw [Layout.mem_reached]
  exact and_iff_right (input.connected _ v)

theorem houseDist_le_of_slot (start : Fin input.houseNum)
    (hslot : (input.vertice u).house = some (input.house j)) :
    input.houseDist start j ≤ input.graph.dist (input.house start) u + 1 := by
  have htriangle : input.houseDist start j ≤
      input.graph.dist (input.house start) u + input.graph.dist u (input.house j) :=
    input.connected.dist_triangle
  have hle : input.graph.dist u (input.house j) ≤ 1 := Layout.dist_slot_le hslot
  omega

/-- The level that shows a house first is the right one just if the house is in the slot of a vertex
one road nearer. -/
theorem firstShown_succ_eq_iff (hfirst : input.FirstShown start (input.house j) d) :
    d + 1 = input.houseDist start j ↔
      ∃ u, input.graph.dist (input.house start) u + 1 = input.houseDist start j ∧
        (input.vertice u).house = some (input.house j) := by
  obtain ⟨v, hv, hslot⟩ := hfirst.1
  have hle := mem_reached_iff.1 hv
  have hdist := houseDist_le_of_slot start hslot
  constructor
  · intro heq
    exact ⟨v, by omega, hslot⟩
  · rintro ⟨u, hu, hnear⟩
    have hlevel := hfirst.2 ⟨u, mem_reached_iff.2 le_rfl, hnear⟩
    omega

/-- A row that is complete holds the distances just if every house is in a slot one road nearer. -/
theorem Complete.distances_iff (h : Complete input start row) :
    (∀ j, start < j → row j = input.houseDist start j) ↔ input.ShownNearer start := by
  refine forall_congr' fun j => imp_congr_right fun hj => ?_
  obtain ⟨d, hfirst, hrow⟩ := h j hj
  rw [hrow]
  exact firstShown_succ_eq_iff hfirst

/-! ### Every house is found -/

theorem indexBehind_eq (hj : start < j) : input.indexBehind start (input.house j) = some j := by
  obtain ⟨k, hk⟩ := Option.ne_none_iff_exists'.1 (Layout.indexBehind_ne_none hj)
  rw [hk, input.house_injective (Layout.lt_of_indexBehind hk).2]

/-- A call that has found all houses behind the start has counted them. -/
theorem Noted.countEnd_eq {m : ℕ} (h : Noted input start m c)
    (hall : ∀ j, start < j → c.visitHouse (input.house j) = true) : c.countEnd = input.houseNum := by
  have hfound : foundFirst input start c.visitHouse = Finset.Ioi start := by
    refine Finset.filter_true_of_mem fun j hj => ?_
    rw [Finset.mem_Ioi] at hj
    exact ⟨hall j hj, indexBehind_eq hj⟩
  have hstart := start.isLt
  rw [h.count_eq, hfound, Fin.card_Ioi]
  omega

/-- With every house in some slot the call does not come to the end of its search array. -/
theorem Visiting.i_lt (h : Visiting input start c row)
    (hslots : ∀ j, start < j → ∃ u, (input.vertice u).house = some (input.house j)) :
    c.i < c.searchArray.length := by
  by_contra hend
  -- at the end of the array every vertex has been visited, and with it every slot
  refine h.unfinished (h.noted.countEnd_eq fun j hj => ?_)
  obtain ⟨u, hslot⟩ := hslots j hj
  have hmem : u ∈ c.searchArray :=
    h.noted.ordered.mem_of_end (not_lt.1 hend) (mem_reached_iff.2 le_rfl)
  obtain ⟨k, hk⟩ := List.mem_iff_getElem?.1 hmem
  have hlt := lt_length_of_getElem? hk
  exact (h.noted.found_iff _).2 ⟨u, ⟨k, by omega, hk⟩, hslot⟩

/-- A call that has not returned is about to visit the next vertex, or is at one of its array. -/
theorem Notes.visiting_or_current (h : Notes input pruning s start)
    (hpc : (s.call start).pc ≠ .returned) :
    Visiting input start (s.call start) (s.distanceToAll start) ∨
      Noted input start ((s.call start).i + 1) (s.call start) ∧
        (s.call start).i < (s.call start).searchArray.length := by
  have hsettled : ∀ {u}, Settled input start u (s.call start) (s.distanceToAll start) →
      Noted input start ((s.call start).i + 1) (s.call start) ∧
        (s.call start).i < (s.call start).searchArray.length :=
    fun hsettled => ⟨hsettled.noted, lt_length_of_getElem? hsettled.current⟩
  rw [Notes, CallNotes] at h
  split at h
  · exact .inl h
  · obtain ⟨u, x, hshowing, -⟩ := h
    exact .inr ⟨hshowing.noted, lt_length_of_getElem? hshowing.current⟩
  iterate 8 exact .inr (hsettled h.2.choose_spec)
  · exact absurd ‹_› hpc

theorem enabled_of_notes (hslots : ∀ j, start < j → ∃ u, (input.vertice u).house = some (input.house j))
    (hstart : IsStart input start) (h : Notes input pruning s start)
    (hpc : (s.call start).pc ≠ .returned) : Enabled input s start := by
  refine ⟨hstart, hpc, ?_⟩
  obtain hvisiting | ⟨-, hlt⟩ := h.visiting_or_current hpc
  · exact hvisiting.i_lt hslots
  · exact hlt

theorem i_lt_of_notes (h : Notes input pruning s start) (hen : Enabled input s start) :
    (s.call start).i < input.verticeNum := by
  have hordered : Ordered (fun v => (input.vertice v).adjacency) (input.house start) (s.call start) := by
    obtain hvisiting | ⟨hnoted, -⟩ := h.visiting_or_current hen.2.1
    · exact hvisiting.noted.ordered
    · exact hnoted.ordered
  have hlen := hordered.nodup.length_le_card
  rw [Fintype.card_fin] at hlen
  exact hen.2.2.trans_le hlen

/-! ### The call as a whole -/

section Alone

variable (hstart : IsStart input start) (hcall : s.call start = initialCall input start)

include hstart hcall

theorem complete_of_returned {fuel : ℕ}
    (hpc : ((runSearch input false fuel s start).call start).pc = .returned) :
    Complete input start ((runSearch input false fuel s start).distanceToAll start) := by
  obtain ⟨trace, hrun⟩ := run_runSearch false fuel s start
  have hnotes := notes_of_run hstart hcall hrun
  rw [Notes, CallNotes, hpc] at hnotes
  exact hnotes rfl

theorem shownNearer_of_findsAll (hfinds : FindsAll input s start) : input.ShownNearer start := by
  obtain ⟨fuel, hpc, hrow⟩ := hfinds
  exact (complete_of_returned hstart hcall hpc).distances_iff.1 hrow

theorem findsAll_of_shownNearer (hnearer : input.ShownNearer start) : FindsAll input s start := by
  have hslots : ∀ j, start < j → ∃ u, (input.vertice u).house = some (input.house j) := by
    intro j hj
    obtain ⟨u, -, hslot⟩ := hnearer j hj
    exact ⟨u, hslot⟩
  have hinitial : Notes input false s start := notes_of_run hstart hcall .nil
  have hpc : ((runSearch input false (remaining input (s.call start)) s start).call start).pc =
      .returned := by
    refine returned_runSearch (P := fun s => Notes input false s start) ?_ ?_ ?_ hinitial le_rfl
    · exact fun s h hen => notes_step h ⟨hen, rfl⟩
    · exact fun s h hen => i_lt_of_notes h hen
    · exact fun s h hpc => enabled_of_notes hslots hstart h hpc
  exact ⟨_, hpc, (complete_of_returned hstart hcall hpc).distances_iff.2 hnearer⟩

end Alone

/-- A call whose flags are cleared, on any shared memory, returns with the distances of all houses
behind its start just if each of them is in the slot of a vertex one road nearer. -/
theorem findsAll_iff (hstart : IsStart input start) (hcall : s.call start = initialCall input start) :
    FindsAll input s start ↔ input.ShownNearer start :=
  ⟨shownNearer_of_findsAll hstart hcall, findsAll_of_shownNearer hstart hcall⟩

theorem Input.SpreadOut.shownNearer (hspread : input.SpreadOut) : input.ShownNearer start := by
  intro j hj
  obtain ⟨k, hk⟩ := Nat.exists_eq_succ_of_ne_zero (Input.houseDist_pos hj.ne).ne'
  obtain ⟨u, hadj, hu⟩ := exists_adj_of_dist_eq_succ hk
  exact ⟨u, (congrArg Nat.succ hu).trans hk.symm, hspread.slot_of_adj hadj⟩

theorem findsAll_sevenInRow : FindsAll sevenInRow (initial sevenInRow) sevenInRow.firstHouse :=
  (findsAll_iff (by decide) rfl).2 spreadOut_sevenInRow.shownNearer

/-- Four houses around one vertex. -/
def fourAround : Input where
  verticeNum := 5
  houseNum := 4
  house := ![1, 2, 3, 4]
  edges := [(0, 1), (0, 2), (0, 3), (0, 4)]
  verticeNum_le := by decide
  two_le_houseNum := by decide
  house_injective := by decide
  degree_pos := by decide
  degree_le := by decide
  connected := connected_of_descent 0 Fin.val (by decide)

/-- The vertex in the middle has only the last house in its slot, so the first call comes to the end of
its search array and does not find the two houses between. -/
theorem fourAround_not_findsAll :
    ¬ FindsAll fourAround (initial fourAround) fourAround.firstHouse ∧
      ((runSearch fourAround false 6 (initial fourAround) fourAround.firstHouse).call
        fourAround.firstHouse).pc = .visit ∧
      ((runSearch fourAround false 6 (initial fourAround) fourAround.firstHouse).call
        fourAround.firstHouse).current = none := by
  refine ⟨fun hfinds => ?_, by decide +kernel, by decide +kernel⟩
  have hnearer := shownNearer_of_findsAll (by decide) rfl hfinds
  obtain ⟨u, -, hslot⟩ := hnearer (1 : Fin 4) (by decide)
  have hnone : ∀ u, (fourAround.vertice u).house ≠ some (fourAround.house (1 : Fin 4)) := by
    decide +kernel
  exact hnone u hslot

end Multicore.Houses
