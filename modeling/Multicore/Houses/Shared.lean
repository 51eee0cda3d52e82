import Multicore.Houses.Tally

/-!
# What the calls share

When the houses lie apart, a value that a call reads from shared memory is either still zero or says
something true of the distances, however late it is read: an entry of `g_house_distance_i_to_all` is
the distance of its two houses, an entry of `g_i_max` bounds the distances to all houses behind its
own, and `g_total_max` is a distance that some pair attains. So a call that returns early had no pair
at the greatest distance left to find.
-/

namespace Multicore.Houses

variable {input : Input} {pruning : Bool} {start k : Fin input.houseNum} {u : Fin input.verticeNum}
  {c : Search input.houseNum (Fin input.verticeNum)}
  {s : State input.houseNum (Fin input.verticeNum)}

/-- The call has stored its results. -/
def Pc.stored {n : ℕ} : Pc n → Bool
  | .storeTotal | .storeIMax | .returned => true
  | _ => false

/-- What the call has read in the loop over `q`. -/
def Reads (input : Input) (s : State input.houseNum (Fin input.verticeNum))
    (start : Fin input.houseNum) (c : Search input.houseNum (Fin input.verticeNum)) : Prop :=
  match c.pc with
  | .testDistance q => s.iMax q ≠ 0
  | .loadDistance q => s.iMax q ≠ 0 ∧ s.distanceToAll q start ≠ 0
  | .loadIMax q => s.iMax q ≠ 0 ∧ q < start ∧ c.sum = input.houseDist q start
  | .compareTotal q =>
    q < start ∧ ∀ j, q < j → input.houseDist q start + input.houseDist q j ≤ c.sum
  | _ => True

structure SharedInv (input : Input) (s : State input.houseNum (Fin input.verticeNum)) : Prop where
  distance_eq : ∀ q j, s.distanceToAll q j ≠ 0 → q < j ∧ s.distanceToAll q j = input.houseDist q j
  iMax_ge : ∀ q, s.iMax q ≠ 0 → q.val + 2 < input.houseNum → ∀ j, q < j → input.houseDist q j ≤ s.iMax q
  totalMax_mem : s.totalMax ≤ 1 ∨ s.totalMax ∈ input.pairDistances
  reads : ∀ start, IsStart input start → Reads input s start (s.call start)

/-- The results of a call when the houses lie apart. Its `most` covers the houses behind the start,
unless the call returned early because of a greater distance elsewhere, or it was the last call and
found the last house first. -/
structure Result (input : Input) (start : Fin input.houseNum) (least most : ℕ) : Prop where
  least_mem : ∃ k, k ≠ start ∧ least = input.houseDist start k
  least_le : ∀ k, k ≠ start → least ≤ input.houseDist start k
  most_mem : most ≤ 1 ∨ ∃ k, k ≠ start ∧ most = input.houseDist start k
  covers : (∀ j, start < j → input.houseDist start j ≤ most) ∨
    (∃ d ∈ input.pairDistances, ∀ j, start < j → input.houseDist start j < d) ∨
    (start.val + 2 = input.houseNum ∧
      ∀ j, start < j → ∀ k, k ≠ start → input.houseDist start j ≤ input.houseDist start k)

/-- The results a call has stored, for any placement of the houses. -/
structure Stored (input : Input) (start : Fin input.houseNum) (least most : ℕ) : Prop where
  least_ne_two : least ≠ 2
  most_ne_two : most ≠ 2
  pair : input.houseNum = 2 → most = 1
  result : input.SpreadOut → Result input start least most

structure Inv (input : Input) (s : State input.houseNum (Fin input.verticeNum)) : Prop where
  calls : ∀ start, IsStart input start → CallInv input start (s.call start)
  stored : ∀ start, (s.call start).pc.stored = true →
    Stored input start (s.distanceLeast start) (s.distanceMost start)
  shared : input.SpreadOut → SharedInv input s

theorem mem_pairDistances {i j : Fin input.houseNum} (hne : i ≠ j) :
    input.houseDist i j ∈ input.pairDistances := by
  obtain hlt | hgt := lt_or_gt_of_ne hne
  · exact ⟨i, j, hlt, rfl⟩
  · exact ⟨j, i, hgt, Layout.houseDist_comm i j⟩

/-! ### What a call has read -/

theorem SharedInv.reads_at (h : SharedInv input s) (hstart : IsStart input start)
    {pc : Pc input.houseNum} (hpc : (s.call start).pc = pc) :
    Reads input s start { s.call start with pc := pc } := by
  rw [← hpc]
  exact h.reads start hstart

/-- Once `g_i_max` of the house `q` is added, the sum bounds the way through `q` to every house. -/
theorem SharedInv.sum_bound (h : SharedInv input s) (hstart : IsStart input start)
    {q : Fin input.houseNum} (hpc : (s.call start).pc = .loadIMax q) :
    Reads input s start
      { s.call start with sum := (s.call start).sum + s.iMax q, pc := .compareTotal q } := by
  obtain ⟨hne, hq, hsum⟩ := h.reads_at hstart hpc
  refine ⟨hq, fun j hj => ?_⟩
  have hlt : q.val + 2 < input.houseNum := by
    rw [IsStart] at hstart
    rw [Fin.lt_def] at hq
    omega
  have hge := h.iMax_ge q hne hlt j hj
  dsimp only at hsum ⊢
  omega

/-! ### What a call stores -/

/-- A call with two houses behind its own has in `most` the distance of the farthest of them. -/
theorem Booked.houseDist_le_most (h : Booked input start u c) (hcount : c.countEnd = input.houseNum)
    (hspread : input.SpreadOut) (hlt : start.val + 2 < input.houseNum) {j : Fin input.houseNum}
    (hj : start < j) : input.houseDist start j ≤ c.most + 1 := by
  have hfound : ∀ j, start < j → j ∈ c.found start :=
    fun j hj => ⟨hj.ne', (h.finds.countEnd_eq_iff).1 hcount j hj⟩
  obtain ⟨-, hsub⟩ | ⟨-, hall⟩ := (h.tally hspread).most
  · have hone : start < ⟨start.val + 1, by omega⟩ := Nat.lt_succ_self start.val
    have htwo : start < ⟨start.val + 2, hlt⟩ := Nat.lt_add_of_pos_right Nat.zero_lt_two
    have hsame := Fin.ext_iff.1 (hsub (hfound _ hone) (hfound _ htwo))
    dsimp only at hsame
    omega
  · exact hall j (hfound j hj)

/-- The extremes of a call that has found all houses behind its own. -/
theorem Booked.result_most (h : Booked input start u c) (hstart : IsStart input start)
    (hcount : c.countEnd = input.houseNum) (hspread : input.SpreadOut) :
    Result input start (c.least + 1) (c.most + 1) := by
  have htally := h.tally hspread
  have hfound : ∀ j, start < j → j ∈ c.found start :=
    fun j hj => ⟨hj.ne', (h.finds.countEnd_eq_iff).1 hcount j hj⟩
  have hnext : start < ⟨start.val + 1, hstart⟩ := Nat.lt_succ_self start.val
  have hnonempty : (c.found start).Nonempty := ⟨_, hfound _ hnext⟩
  obtain ⟨k, hk, heq⟩ := htally.least_mem hnonempty
  refine ⟨⟨k, hk.1, heq⟩, htally.least_le hnonempty, ?_, ?_⟩
  · obtain ⟨hzero, -⟩ | ⟨⟨j, hj, hmost⟩, -⟩ := htally.most
    · exact .inl (by omega)
    · exact .inr ⟨j, hj.1, hmost⟩
  · by_cases hlt : start.val + 2 < input.houseNum
    · exact .inl fun j hj => h.houseDist_le_most hcount hspread hlt hj
    · obtain ⟨-, hsub⟩ | ⟨-, hall⟩ := htally.most
      · -- a single house was found, so it is the nearest
        have hlast : start.val + 2 = input.houseNum := by
          rw [IsStart] at hstart
          omega
        refine .inr (.inr ⟨hlast, fun j hj i hi => ?_⟩)
        rw [hsub (hfound j hj) hk, ← heq]
        exact htally.least_le hnonempty i hi
      · exact .inl fun j hj => hall j (hfound j hj)

/-- What an early return stores. -/
theorem Booked.result_least (h : Booked input start u c) (hflag : c.leastFlag = false)
    (hspread : input.SpreadOut) {d : ℕ} (hd : d ∈ input.pairDistances)
    (hfar : ∀ j, start < j → input.houseDist start j < d) :
    Result input start (c.least + 1) (c.least + 1) := by
  have htally := h.tally hspread
  have hnonempty : (c.found start).Nonempty := by
    rw [Set.nonempty_iff_ne_empty]
    intro hempty
    exact Bool.false_ne_true (hflag.symm.trans (htally.flag_iff.2 hempty))
  obtain ⟨k, hk, heq⟩ := htally.least_mem hnonempty
  exact ⟨⟨k, hk.1, heq⟩, htally.least_le hnonempty, .inr ⟨k, hk.1, heq⟩, .inr (.inl ⟨d, hd, hfar⟩)⟩

theorem Sane.least_ne {n : ℕ} {V : Type*} {c : Search n V} (h : Sane c) : c.least + 1 ≠ 2 := by
  cases hflag : c.leastFlag with
  | true =>
    have hzero := (h.flag_true hflag).1
    omega
  | false =>
    have htwo := (h.flag_false hflag).1
    omega

theorem Sane.most_ne {n : ℕ} {V : Type*} {c : Search n V} (h : Sane c) : c.most + 1 ≠ 2 := by
  have hmost := h.most
  omega

/-! ### Steps that have read nothing and stored nothing -/

/-- The places where a call is outside the loop over `q`, or at the head of it, with no result
stored. -/
def Pc.plain {n : ℕ} : Pc n → Bool
  | .visit | .recordDistance _ | .testIMax _ | .compareMost => true
  | _ => false

theorem reads_of_plain (hplain : c.pc.plain = true) : Reads input s start c := by
  rw [Reads]
  cases hpc : c.pc <;> rw [hpc] at hplain
  all_goals trivial

theorem not_stored_of_plain {n : ℕ} {pc : Pc n} (hplain : pc.plain = true) : pc.stored = false := by
  cases pc <;> first | rfl | cases hplain

theorem plain_checkEnd : (c.checkEnd input u).pc.plain = true := by
  rw [Search.checkEnd]
  split <;> rfl

theorem plain_updateExtremes : (c.updateExtremes input pruning u).pc.plain = true := by
  rw [Search.updateExtremes]
  split
  · split
    · rfl
    · exact plain_checkEnd
  · split <;> exact plain_checkEnd

theorem plain_visit : (c.visit input pruning start u).pc.plain = true := by
  rw [Search.visit]
  split
  · rfl
  · split
    · rfl
    · rw [Search.findHouse]
      split
      · rfl
      · exact plain_updateExtremes

theorem plain_nextQ {q : Fin input.houseNum} : (c.nextQ input u q).pc.plain = true := by
  rw [Search.nextQ]
  split
  · rfl
  · exact plain_checkEnd

/-! ### One access to shared memory -/

theorem Reads.mono {s' : State input.houseNum (Fin input.verticeNum)} (h : Reads input s start c)
    (hiMax : ∀ q, s.iMax q ≠ 0 → s'.iMax q ≠ 0)
    (hdistance : ∀ q j, s.distanceToAll q j ≠ 0 → s'.distanceToAll q j ≠ 0) :
    Reads input s' start c := by
  rw [Reads] at h ⊢
  split at h
  · exact hiMax _ h
  · exact ⟨hiMax _ h.1, hdistance _ _ h.2⟩
  · exact ⟨hiMax _ h.1, h.2⟩
  · exact h
  · trivial

namespace Inv

theorem setCall (h : Inv input s) (hcall : CallInv input start c)
    (hreads : input.SpreadOut → Reads input s start c)
    (hstored : c.pc.stored = true →
      Stored input start (s.distanceLeast start) (s.distanceMost start)) :
    Inv input (s.setCall start c) := by
  refine ⟨fun other hother => ?_, fun other => ?_, fun hspread => ?_⟩
  · by_cases heq : other = start
    · subst heq
      rw [State.setCall_call_self]
      exact hcall
    · rw [State.setCall_call_of_ne heq]
      exact h.calls other hother
  · by_cases heq : other = start
    · subst heq
      rw [State.setCall_call_self]
      exact hstored
    · rw [State.setCall_call_of_ne heq]
      exact h.stored other
  · have hshared := h.shared hspread
    refine ⟨hshared.distance_eq, hshared.iMax_ge, hshared.totalMax_mem, fun other hother => ?_⟩
    by_cases heq : other = start
    · subst heq
      rw [State.setCall_call_self]
      exact hreads hspread
    · rw [State.setCall_call_of_ne heq]
      exact hshared.reads other hother

theorem setCall_plain (h : Inv input s) (hcall : CallInv input start c)
    (hplain : c.pc.plain = true) : Inv input (s.setCall start c) :=
  h.setCall hcall (fun _ => reads_of_plain hplain)
    fun hstored => absurd (hstored.symm.trans (not_stored_of_plain hplain)) Bool.noConfusion

theorem setResult (h : Inv input s) (hopen : (s.call start).pc.stored = false) (least most : ℕ) :
    Inv input (s.setResult start least most) := by
  refine ⟨h.calls, fun other hother => ?_, fun hspread => ?_⟩
  · have hne : other ≠ start := by
      rintro rfl
      exact Bool.noConfusion (hopen.symm.trans hother)
    simp only [State.setResult, Function.update_of_ne hne]
    exact h.stored other hother
  · have hshared := h.shared hspread
    exact ⟨hshared.distance_eq, hshared.iMax_ge, hshared.totalMax_mem, hshared.reads⟩

/-- The distance a call records is that of the house it has just found. -/
theorem recordDistance (h : Inv input s) {j : Fin input.houseNum} (hj : start < j)
    (hpending : Pending input start j u c) :
    Inv input
      { s with
        distanceToAll := Function.update s.distanceToAll start
          (Function.update (s.distanceToAll start) j (c.distance + 1)) } := by
  have hentry : ∀ q i, (q = start ∧ i = j) ∨
      Function.update s.distanceToAll start
        (Function.update (s.distanceToAll start) j (c.distance + 1)) q i = s.distanceToAll q i := by
    intro q i
    by_cases hq : q = start
    · subst hq
      by_cases hi : i = j
      · exact .inl ⟨rfl, hi⟩
      · exact .inr (by rw [Function.update_self, Function.update_of_ne hi])
    · exact .inr (by rw [Function.update_of_ne hq])
  have hnew : Function.update s.distanceToAll start
      (Function.update (s.distanceToAll start) j (c.distance + 1)) start j = c.distance + 1 := by
    rw [Function.update_self, Function.update_self]
  refine ⟨h.calls, h.stored, fun hspread => ?_⟩
  have hshared := h.shared hspread
  refine ⟨fun q i hne => ?_, hshared.iMax_ge, hshared.totalMax_mem, fun other hother => ?_⟩
  · obtain ⟨rfl, rfl⟩ | hold := hentry q i
    · exact ⟨hj, hnew.trans (hpending.houseDist_eq hspread hj.ne').symm⟩
    · dsimp only at hne ⊢
      rw [hold] at hne ⊢
      exact hshared.distance_eq q i hne
  · refine (hshared.reads other hother).mono (fun _ hq => hq) fun q i hne => ?_
    obtain ⟨rfl, rfl⟩ | hold := hentry q i
    · dsimp only
      rw [hnew]
      exact Nat.succ_ne_zero _
    · dsimp only
      rwa [hold]

theorem storeTotal (h : Inv input s) (hbooked : Booked input start u c) :
    Inv input { s with totalMax := c.most + 1 } := by
  refine ⟨h.calls, h.stored, fun hspread => ?_⟩
  have hshared := h.shared hspread
  refine ⟨hshared.distance_eq, hshared.iMax_ge, ?_, hshared.reads⟩
  obtain ⟨hzero, -⟩ | ⟨⟨j, hj, hmost⟩, -⟩ := (hbooked.tally hspread).most
  · exact .inl (by dsimp only; omega)
  · exact .inr (hmost ▸ mem_pairDistances hj.1.symm)

theorem storeIMax (h : Inv input s) (hbooked : Booked input start u c)
    (hcount : c.countEnd = input.houseNum) :
    Inv input { s with iMax := Function.update s.iMax start (c.most + 1) } := by
  refine ⟨h.calls, h.stored, fun hspread => ?_⟩
  have hshared := h.shared hspread
  refine ⟨hshared.distance_eq, fun q hq hlt j hj => ?_, hshared.totalMax_mem, fun other hother => ?_⟩
  · by_cases heq : q = start
    · subst heq
      dsimp only
      rw [Function.update_self]
      exact hbooked.houseDist_le_most hcount hspread hlt hj
    · dsimp only at hq ⊢
      rw [Function.update_of_ne heq] at hq ⊢
      exact hshared.iMax_ge q hq hlt j hj
  · refine (hshared.reads other hother).mono (fun q hq => ?_) fun _ _ hne => hne
    by_cases heq : q = start
    · subst heq
      dsimp only
      rw [Function.update_self]
      exact Nat.succ_ne_zero _
    · dsimp only
      rwa [Function.update_of_ne heq]

/-! ### The steps of the calls -/

/-- The early return: through the house `q` every house behind the start is nearer than the two
houses at distance `totalMax`. -/
theorem stored_pruned (h : Inv input s) (hstart : IsStart input start) {q : Fin input.houseNum}
    (hpc : (s.call start).pc = .compareTotal q) (hlt : (s.call start).sum < s.totalMax) :
    Stored input start ((s.call start).least + 1) ((s.call start).least + 1) := by
  have hcall := h.calls start hstart
  rw [CallInv, hpc] at hcall
  obtain ⟨htwo, hflag, u, hbooked⟩ := hcall
  refine ⟨hbooked.sane.least_ne, hbooked.sane.least_ne, fun heq => absurd heq htwo, fun hspread => ?_⟩
  have hshared := h.shared hspread
  obtain ⟨hq, hsum⟩ := hshared.reads_at hstart hpc
  dsimp only at hsum
  have htotal : s.totalMax ∈ input.pairDistances := by
    have hpos : 0 < input.houseDist q start := Input.houseDist_pos hq.ne
    have hself := hsum start hq
    obtain hone | hmem := hshared.totalMax_mem
    · omega
    · exact hmem
  refine hbooked.result_least hflag hspread htotal fun j hj => ?_
  calc input.houseDist start j ≤ input.houseDist start q + input.houseDist q j :=
        Input.houseDist_triangle start q j
    _ = input.houseDist q start + input.houseDist q j := by rw [Layout.houseDist_comm start q]
    _ ≤ (s.call start).sum := hsum j (hq.trans hj)
    _ < s.totalMax := hlt

theorem stepAt (h : Inv input s) (hstart : IsStart input start)
    (hu : (s.call start).searchArray[(s.call start).i]? = some u) :
    Inv input (stepAt input pruning s start (s.call start) u) := by
  have hcall := h.calls start hstart
  have hsame : ∀ {v}, Booked input start v (s.call start) → Booked input start u (s.call start) := by
    intro v hv
    rw [hv.current] at hu
    exact Option.some.inj hu ▸ hv
  rw [Houses.stepAt]
  rw [CallInv] at hcall
  cases hpc : (s.call start).pc <;> rw [hpc] at hcall <;> dsimp only at hcall ⊢
  case visit => exact h.setCall_plain (hcall.callInv_visit hstart hu) plain_visit
  case recordDistance j =>
    obtain ⟨hj, v, hpending⟩ := hcall
    rw [hpending.current] at hu
    cases hu
    exact (h.recordDistance hj hpending).setCall_plain (hpending.callInv_updateExtremes hstart)
      plain_updateExtremes
  case testIMax q =>
    obtain ⟨htwo, hflag, v, hbooked⟩ := hcall
    split
    · split
      · rename_i hne
        exact h.setCall ⟨htwo, hflag, v, hbooked.relabel _ _⟩ (fun _ => hne) Bool.noConfusion
      · exact h.setCall_plain ((hsame hbooked).callInv_nextQ htwo hflag q) plain_nextQ
    · exact h.setCall_plain (hsame hbooked).callInv_checkEnd plain_checkEnd
  case testDistance q =>
    obtain ⟨htwo, hflag, v, hbooked⟩ := hcall
    split
    · rename_i hne
      refine h.setCall ⟨htwo, hflag, v, hbooked.relabel _ _⟩ (fun hspread => ?_) Bool.noConfusion
      have hreads := (h.shared hspread).reads_at hstart hpc
      exact ⟨hreads, hne⟩
    · exact h.setCall_plain ((hsame hbooked).callInv_nextQ htwo hflag q) plain_nextQ
  case loadDistance q =>
    obtain ⟨htwo, hflag, v, hbooked⟩ := hcall
    refine h.setCall ⟨htwo, hflag, v, hbooked.relabel _ _⟩ (fun hspread => ?_) Bool.noConfusion
    have hreads := (h.shared hspread).reads_at hstart hpc
    exact ⟨hreads.1, (h.shared hspread).distance_eq q start hreads.2⟩
  case loadIMax q =>
    obtain ⟨htwo, hflag, v, hbooked⟩ := hcall
    exact h.setCall ⟨htwo, hflag, v, hbooked.relabel _ _⟩
      (fun hspread => (h.shared hspread).sum_bound hstart hpc) Bool.noConfusion
  case compareTotal q =>
    obtain ⟨htwo, hflag, v, hbooked⟩ := hcall
    split
    · rename_i hlt
      have hopen : (s.call start).pc.stored = false := by rw [hpc]; rfl
      refine (h.setResult hopen _ _).setCall trivial (fun _ => trivial) fun _ => ?_
      simp only [State.setResult, Function.update_self]
      exact h.stored_pruned hstart hpc hlt
    · exact h.setCall_plain ((hsame hbooked).callInv_nextQ htwo hflag q) plain_nextQ
  case compareMost =>
    obtain ⟨hcount, v, hbooked⟩ := hcall
    have hopen : (s.call start).pc.stored = false := by rw [hpc]; rfl
    have hresult : Stored input start ((s.call start).least + 1) ((s.call start).most + 1) :=
      ⟨hbooked.sane.least_ne, hbooked.sane.most_ne, fun htwo => by rw [(hbooked.pair htwo).1],
        hbooked.result_most hstart hcount⟩
    split
    all_goals
      refine (h.setResult hopen _ _).setCall ⟨hcount, v, hbooked.relabel _ _⟩ (fun _ => trivial) fun _ => ?_
      simp only [State.setResult, Function.update_self]
      exact hresult
  case storeTotal =>
    obtain ⟨hcount, v, hbooked⟩ := hcall
    exact (h.storeTotal hbooked).setCall ⟨hcount, v, hbooked.relabel _ _⟩ (fun _ => trivial)
      fun _ => h.stored start (by rw [hpc]; rfl)
  case storeIMax =>
    obtain ⟨hcount, v, hbooked⟩ := hcall
    exact (h.storeIMax hbooked hcount).setCall trivial (fun _ => trivial)
      fun _ => h.stored start (by rw [hpc]; rfl)
  case returned => exact h

end Inv

theorem inv_step {s' : State input.houseNum (Fin input.verticeNum)} (h : Inv input s)
    (hstep : Step input pruning s start s') : Inv input s' := by
  obtain ⟨hen, rfl⟩ := hstep
  obtain ⟨u, hu, heq⟩ := exists_current pruning hen
  rw [heq]
  exact h.stepAt hen.1 hu

theorem levels_initialCall : Levels input.graph (input.house start) (initialCall input start) := by
  have hget : ∀ (k : ℕ) v, (initialCall input start).searchArray[k]? = some v →
      k = 0 ∧ v = input.house start := by
    intro k v hv
    rw [initialCall, List.getElem?_singleton] at hv
    split at hv
    · exact ⟨‹_›, (Option.some.inj hv).symm⟩
    · cases hv
  constructor
  case explored =>
    have hexplored : Explored input.graph (input.house start) {input.house start} ∅ 0 :=
      Explored.start input.connected
    refine ⟨fun v hv => ?_, fun v hv => ?_, ?_⟩
    · exact List.mem_singleton.2 (hexplored.complete v hv)
    · exact hexplored.bounded v (List.mem_singleton.1 hv)
    · rintro v ⟨k, hk, -⟩
      exact absurd hk (Nat.not_lt_zero k)
  case flag_iff =>
    intro v
    by_cases hv : v = input.house start
    · simp [initialCall, hv]
    · simp [initialCall, hv]
  case nodup => exact List.nodup_singleton _
  case sorted =>
    intro k l v w _ hv hw
    rw [(hget k v hv).2, (hget l w hw).2]
  case level_iff =>
    intro k v hv
    rw [(hget k v hv).1, (hget k v hv).2, SimpleGraph.dist_self]
    exact iff_of_true le_rfl le_rfl
  case ahead =>
    intro k v _ _
    exact Nat.zero_le _
  case length_eq => rfl
  case index => exact .inl le_rfl

theorem atVisit_initialCall (hstart : IsStart input start) :
    AtVisit input start (initialCall input start) where
  levels := levels_initialCall
  finds := finds_initialCall
  sane := ⟨fun _ => ⟨rfl, rfl⟩, fun hflag => absurd hflag Bool.noConfusion, .inl rfl⟩
  unfinished := by
    show 1 + start.val ≠ input.houseNum
    rw [IsStart] at hstart
    omega
  pair _ := rfl
  tally _ := by
    have hfound : (initialCall input start).found start = ∅ := by simp [Search.found, initialCall]
    rw [hfound]
    exact ⟨iff_of_true rfl rfl, fun hne => absurd rfl hne.ne_empty, fun hne => absurd rfl hne.ne_empty,
      .inl ⟨rfl, Set.subsingleton_empty⟩⟩

theorem inv_initial : Inv input (initial input) where
  calls _ hstart := atVisit_initialCall hstart
  stored _ hstored := absurd hstored Bool.noConfusion
  shared _ := ⟨fun _ _ hne => absurd rfl hne, fun _ hne => absurd rfl hne, .inl (Nat.zero_le 1),
    fun _ _ => trivial⟩

theorem inv_of_run_from {s' : State input.houseNum (Fin input.verticeNum)}
    {trace : List (Fin input.houseNum)} (h : Inv input s) (hrun : Run (Step input pruning) s trace s') :
    Inv input s' :=
  hrun.invariant (P := fun _ s => Inv input s) h fun _ _ _ _ _ h hstep => inv_step h hstep

theorem inv_of_run {trace : List (Fin input.houseNum)}
    (hrun : Run (Step input pruning) (initial input) trace s) : Inv input s :=
  inv_of_run_from inv_initial hrun

end Multicore.Houses
