import Multicore.Houses.Shared

/-!
# Every call returns

Each step of a call either moves on within the visit of one vertex or goes to the next vertex, and no
vertex is visited twice; so the number of steps is bounded whatever the other calls do. When the
houses lie apart no call runs past the end of its search array, because by then it has found all
houses.
-/

namespace Multicore.Houses

variable {input : Input} {pruning : Bool} {start : Fin input.houseNum} {u : Fin input.verticeNum}
  {c : Search input.houseNum (Fin input.verticeNum)}
  {s : State input.houseNum (Fin input.verticeNum)}

/-- A bound for the steps left until the visit of the current vertex is over. -/
def Pc.rank {n : ℕ} : Pc n → ℕ
  | .visit => 5 * n + 6
  | .recordDistance _ => 5 * n + 5
  | .testIMax q => 5 * (n - q) + 4
  | .testDistance q => 5 * (n - q) + 3
  | .loadDistance q => 5 * (n - q) + 2
  | .loadIMax q => 5 * (n - q) + 1
  | .compareTotal q => 5 * (n - q)
  | .compareMost => 3
  | .storeTotal => 2
  | .storeIMax => 1
  | .returned => 0

/-- A bound for the steps a call has left. -/
def remaining (input : Input) (c : Search input.houseNum (Fin input.verticeNum)) : ℕ :=
  (input.verticeNum - c.i) * (5 * input.houseNum + 7) + c.pc.rank

/-- A bound for the steps all calls have left. -/
def work (input : Input) (s : State input.houseNum (Fin input.verticeNum)) : ℕ :=
  ∑ start, remaining input (s.call start)

/-- From `c` to `c'` the call has stayed at its vertex, with rank at most `bound` left, or has gone to
the next vertex. -/
def Advances {n : ℕ} {V : Type*} (c c' : Search n V) (bound : ℕ) : Prop :=
  (c'.i = c.i ∧ c'.pc.rank ≤ bound) ∨ (c'.i = c.i + 1 ∧ c'.pc = .visit)

theorem Advances.mono {n : ℕ} {V : Type*} {c c' : Search n V} {bound bound' : ℕ}
    (h : Advances c c' bound) (hle : bound ≤ bound') : Advances c c' bound' := by
  obtain ⟨hi, hrank⟩ | hnext := h
  · exact .inl ⟨hi, hrank.trans hle⟩
  · exact .inr hnext

theorem Advances.remaining_lt {c' : Search input.houseNum (Fin input.verticeNum)} {bound : ℕ}
    (h : Advances c c' bound) (hi : c.i < input.verticeNum) (hlt : bound < c.pc.rank) :
    remaining input c' < remaining input c := by
  rw [remaining, remaining]
  obtain ⟨heq, hrank⟩ | ⟨heq, hpc⟩ := h
  · rw [heq]
    omega
  · have hsplit : input.verticeNum - c.i = input.verticeNum - (c.i + 1) + 1 := by omega
    rw [heq, hpc, hsplit, Nat.succ_mul (input.verticeNum - (c.i + 1))]
    show _ + (5 * input.houseNum + 6) < _
    omega

theorem advances_expand (adjacency : List (Fin input.verticeNum)) (bound : ℕ) :
    Advances c (c.expand adjacency) bound :=
  .inr ⟨expand_i adjacency c, rfl⟩

theorem advances_checkEnd : Advances c (c.checkEnd input u) 3 := by
  rw [Search.checkEnd]
  split
  · exact .inl ⟨rfl, le_rfl⟩
  · exact advances_expand _ _

theorem advances_updateExtremes :
    Advances c (c.updateExtremes input pruning u) (5 * input.houseNum + 4) := by
  have hle : 3 ≤ 5 * input.houseNum + 4 := by omega
  rw [Search.updateExtremes]
  split
  · split
    · exact .inl ⟨rfl, le_rfl⟩
    · exact advances_checkEnd.mono hle
  · split
    · exact advances_checkEnd.mono hle
    · exact advances_checkEnd.mono hle

theorem advances_visit : Advances c (c.visit input pruning start u) (5 * input.houseNum + 5) := by
  rw [Search.visit]
  split
  · exact advances_expand _ _
  · split
    · exact advances_expand _ _
    · rw [Search.findHouse]
      split
      · exact .inl ⟨rfl, le_rfl⟩
      · exact advances_updateExtremes.mono (Nat.le_succ _)

theorem advances_nextQ {q : Fin input.houseNum} :
    Advances c (c.nextQ input u q) (5 * (input.houseNum - q) - 1) := by
  have hq := q.isLt
  rw [Search.nextQ]
  split
  · refine .inl ⟨rfl, ?_⟩
    show 5 * (input.houseNum - (q.val + 1)) + 4 ≤ _
    omega
  · exact advances_checkEnd.mono (by omega)

/-- Every step of a call leaves it less to do. -/
theorem advances_stepAt (hpc : c.pc ≠ .returned) :
    Advances c ((stepAt input pruning s start c u).call start) (c.pc.rank - 1) := by
  have hrank : ∀ q : Fin input.houseNum, 5 * (input.houseNum - q) - 1 ≤ 5 * (input.houseNum - q) + 3 :=
    fun q => by omega
  rw [stepAt]
  cases hc : c.pc <;> dsimp only
  case visit =>
    rw [State.setCall_call_self]
    exact advances_visit
  case recordDistance j =>
    rw [State.setCall_call_self]
    exact advances_updateExtremes
  case testIMax q =>
    split
    · split
      · rw [State.setCall_call_self]
        exact .inl ⟨rfl, le_rfl⟩
      · rw [State.setCall_call_self]
        exact advances_nextQ.mono (hrank q)
    · rw [State.setCall_call_self]
      exact advances_checkEnd.mono (Nat.le_add_left 3 _)
  case testDistance q =>
    split
    · rw [State.setCall_call_self]
      exact .inl ⟨rfl, le_rfl⟩
    · rw [State.setCall_call_self]
      refine advances_nextQ.mono ?_
      show 5 * (input.houseNum - q) - 1 ≤ 5 * (input.houseNum - q) + 2
      omega
  case loadDistance q =>
    rw [State.setCall_call_self]
    exact .inl ⟨rfl, le_rfl⟩
  case loadIMax q =>
    rw [State.setCall_call_self]
    exact .inl ⟨rfl, le_rfl⟩
  case compareTotal q =>
    split
    · rw [State.setCall_call_self]
      exact .inl ⟨rfl, Nat.zero_le _⟩
    · rw [State.setCall_call_self]
      exact advances_nextQ
  case compareMost =>
    rw [State.setCall_call_self]
    refine .inl ⟨rfl, ?_⟩
    dsimp only
    split
    · exact le_rfl
    · exact Nat.le_succ 1
  case storeTotal =>
    rw [State.setCall_call_self]
    exact .inl ⟨rfl, le_rfl⟩
  case storeIMax =>
    rw [State.setCall_call_self]
    exact .inl ⟨rfl, le_rfl⟩
  case returned => exact absurd hc hpc

/-! ### Bounded runs -/

theorem CallInv.levels (h : CallInv input start c) (hpc : c.pc ≠ .returned) :
    Levels input.graph (input.house start) c := by
  rw [CallInv] at h
  split at h
  · exact h.levels
  · exact h.2.choose_spec.levels
  iterate 5 exact h.2.2.choose_spec.levels
  iterate 3 exact h.2.choose_spec.levels
  · exact absurd ‹_› hpc

theorem remaining_effect_lt (pruning : Bool) (hen : Enabled input s start)
    (hi : (s.call start).i < input.verticeNum) :
    remaining input ((effect input pruning s start).call start) < remaining input (s.call start) := by
  obtain ⟨u, hu, heq⟩ := exists_current pruning hen
  have hpos : 0 < (s.call start).pc.rank := by
    cases hpc : (s.call start).pc <;> simp only [Pc.rank]
    case returned => exact absurd hpc hen.2.1
    case compareTotal q =>
      have hq := q.isLt
      omega
    all_goals omega
  rw [heq]
  exact (advances_stepAt hen.2.1).remaining_lt hi (Nat.sub_lt hpos Nat.one_pos)

theorem Inv.i_lt (h : Inv input s) (hen : Enabled input s start) :
    (s.call start).i < input.verticeNum := by
  have hlen := ((h.calls start hen.1).levels hen.2.1).length_le_card
  rw [Fintype.card_fin] at hlen
  exact hen.2.2.trans_le hlen

/-- No interleaving has more steps than the calls have work at the start. -/
theorem length_le_work {trace : List (Fin input.houseNum)}
    (hrun : Run (Step input pruning) (initial input) trace s) :
    trace.length ≤ work input (initial input) := by
  apply hrun.length_le_sum fun s start => remaining input (s.call start)
  · rintro trace s start s' hrun ⟨hen, rfl⟩
    exact remaining_effect_lt pruning hen ((inv_of_run hrun).i_lt hen)
  · rintro s start s' other ⟨-, rfl⟩ hne
    rw [call_effect_of_ne hne]

/-- With the houses apart a call that has not returned can go on. -/
theorem enabled_of_not_returned (hspread : input.SpreadOut) (h : Inv input s)
    (hstart : IsStart input start) (hpc : (s.call start).pc ≠ .returned) : Enabled input s start := by
  refine ⟨hstart, hpc, ?_⟩
  have hcall := h.calls start hstart
  rw [CallInv] at hcall
  split at hcall
  · by_contra hend
    exact hcall.unfinished (hcall.finds.countEnd_eq_iff.2 fun j hj =>
      found_of_end hspread hcall.levels hcall.finds (not_lt.1 hend) hj.ne')
  · exact lt_length_of_getElem? hcall.2.choose_spec.current
  iterate 5 exact lt_length_of_getElem? hcall.2.2.choose_spec.current
  iterate 3 exact lt_length_of_getElem? hcall.2.choose_spec.current
  · exact absurd ‹_› hpc

/-! ### One call after another -/

theorem run_runSearch (pruning : Bool) (fuel : ℕ) (s : State input.houseNum (Fin input.verticeNum))
    (start : Fin input.houseNum) :
    ∃ trace, Run (Step input pruning) s trace (runSearch input pruning fuel s start) := by
  induction fuel generalizing s with
  | zero => exact ⟨[], .nil⟩
  | succ fuel ih =>
    rw [runSearch]
    split
    · rename_i hen
      obtain ⟨trace, hrun⟩ := ih (effect input pruning s start)
      exact ⟨trace ++ [start], Run.append (.cons .nil ⟨hen, rfl⟩) hrun⟩
    · exact ⟨[], .nil⟩

theorem run_foldl_runSearch (fuel : ℕ) (l : List (Fin input.houseNum))
    (s : State input.houseNum (Fin input.verticeNum)) :
    ∃ trace, Run (Step input pruning) s trace (l.foldl (runSearch input pruning fuel) s) := by
  induction l generalizing s with
  | nil => exact ⟨[], .nil⟩
  | cons start l ih =>
    obtain ⟨first, hfirst⟩ := run_runSearch pruning fuel s start
    obtain ⟨later, hlater⟩ := ih (runSearch input pruning fuel s start)
    exact ⟨later ++ first, hfirst.append hlater⟩

theorem run_searchInTurn (input : Input) (pruning : Bool) (fuel : ℕ) :
    ∃ trace, Run (Step input pruning) (initial input) trace (searchInTurn input pruning fuel) :=
  run_foldl_runSearch fuel (starts input) (initial input)

theorem call_runSearch_of_ne {other : Fin input.houseNum} (hne : other ≠ start) (fuel : ℕ)
    (s : State input.houseNum (Fin input.verticeNum)) :
    (runSearch input pruning fuel s start).call other = s.call other := by
  induction fuel generalizing s with
  | zero => rfl
  | succ fuel ih =>
    rw [runSearch]
    split
    · rw [ih, call_effect_of_ne hne]
    · rfl

/-- Enough fuel brings a call to its return, if it keeps what lets it go on. -/
theorem returned_runSearch {P : State input.houseNum (Fin input.verticeNum) → Prop}
    (hstep : ∀ s, P s → Enabled input s start → P (effect input pruning s start))
    (hi : ∀ s, P s → Enabled input s start → (s.call start).i < input.verticeNum)
    (hgo : ∀ s, P s → (s.call start).pc ≠ .returned → Enabled input s start) {fuel : ℕ}
    (h : P s) (hfuel : remaining input (s.call start) ≤ fuel) :
    ((runSearch input pruning fuel s start).call start).pc = .returned := by
  induction fuel generalizing s with
  | zero =>
    by_contra hpc
    have hen := hgo s h hpc
    have hlt := remaining_effect_lt pruning hen (hi s h hen)
    exact Nat.not_lt_zero _ (hlt.trans_le hfuel)
  | succ fuel ih =>
    rw [runSearch]
    split
    · rename_i hen
      have hlt := remaining_effect_lt pruning hen (hi s h hen)
      exact ih (hstep s h hen) (by omega)
    · rename_i hstop
      by_contra hpc
      exact hstop (hgo s h hpc)

theorem call_foldl_runSearch_of_notMem {other : Fin input.houseNum} (fuel : ℕ)
    {l : List (Fin input.houseNum)} (hother : other ∉ l)
    (s : State input.houseNum (Fin input.verticeNum)) :
    (l.foldl (runSearch input pruning fuel) s).call other = s.call other := by
  induction l generalizing s with
  | nil => rfl
  | cons start l ih =>
    rw [List.mem_cons, not_or] at hother
    exact (ih hother.2 _).trans (call_runSearch_of_ne hother.1 fuel s)

/-- The calls in a list return one after the other, each starting where the list finds it. -/
theorem returned_foldl_runSearch (hspread : input.SpreadOut) {fuel : ℕ}
    {l : List (Fin input.houseNum)} (hnodup : l.Nodup) (hl : ∀ start ∈ l, IsStart input start)
    (h : Inv input s) (hfuel : ∀ start ∈ l, remaining input (s.call start) ≤ fuel) :
    ∀ start ∈ l, ((l.foldl (runSearch input pruning fuel) s).call start).pc = .returned := by
  induction l generalizing s with
  | nil => exact fun start hstart => absurd hstart List.not_mem_nil
  | cons first l ih =>
    obtain ⟨hfirst, hnodup⟩ := List.nodup_cons.1 hnodup
    obtain ⟨trace, hrun⟩ := run_runSearch pruning fuel s first
    have hinv := inv_of_run_from h hrun
    have hreturned : ((runSearch input pruning fuel s first).call first).pc = .returned := by
      refine returned_runSearch (P := Inv input) ?_ ?_ ?_ h (hfuel first List.mem_cons_self)
      · exact fun s h hen => inv_step h ⟨hen, rfl⟩
      · exact fun s h hen => h.i_lt hen
      · exact fun s h hpc => enabled_of_not_returned hspread h (hl first List.mem_cons_self) hpc
    intro start hstart
    obtain rfl | hstart := List.mem_cons.1 hstart
    · exact (congrArg Search.pc (call_foldl_runSearch_of_notMem fuel hfirst _)).trans hreturned
    · refine ih hnodup (fun x hx => hl x (List.mem_cons_of_mem _ hx)) hinv (fun x hx => ?_) start hstart
      have hne : x ≠ first := fun heq => hfirst (heq ▸ hx)
      rw [call_runSearch_of_ne hne]
      exact hfuel x (List.mem_cons_of_mem _ hx)

theorem mem_starts : start ∈ starts input ↔ IsStart input start := by simp [starts]

/-- With the houses apart all calls return, one after another. -/
theorem exists_allReturned (hspread : input.SpreadOut) (pruning : Bool) :
    ∃ fuel, AllReturned input (searchInTurn input pruning fuel) := by
  refine ⟨input.verticeNum * (5 * input.houseNum + 7) + (5 * input.houseNum + 6), fun start hstart => ?_⟩
  exact returned_foldl_runSearch hspread ((List.nodup_finRange _).filter _)
    (fun _ hx => mem_starts.1 hx) inv_initial (fun _ _ => le_rfl) start (mem_starts.2 hstart)

end Multicore.Houses
