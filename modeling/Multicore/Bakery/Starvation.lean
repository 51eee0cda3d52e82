import Multicore.Base.Fair
import Multicore.Bakery.Order
import Multicore.Bakery.Progress

/-!
# Nobody waits forever

Under a scheduler that goes on giving steps to every thread inside `bakery_lock` or in its critical
section, each call of `bakery_lock` returns. The proof follows the order in which tickets are served. A
request is either served before the one of `i`, and then it gets through and gives its ticket back, or
it comes after it and stays there until `i` is through (`Later`); a thread that has given its ticket back
can only come after `i` again. So from some time on every other thread is later than `i`, and then no
test holds `i` up.
-/

namespace Multicore.Bakery

variable {n : ℕ} {s : State n} {i j t : Fin n}

/-- Thread `i` has announced its ticket and has not returned from `bakery_lock` yet. -/
def Waits (s : State n) (i : Fin n) : Prop := (s.pc i).behindDoorway ∧ s.pc i ≠ .critical

/-- The request of `j`, if there is one, is served after the one of `i`. -/
def Later (s : State n) (i j : Fin n) : Prop :=
  Doorway s i j ∧ ((s.pc j).behindDoorway → Before s i j)

theorem waits_effect (hwait : Waits s i) : Waits (effect s t) i ∨ (effect s t).pc i = .critical := by
  by_cases hpc : (effect s t).pc i = .critical
  · exact .inr hpc
  · exact .inl ⟨behindDoorway_effect hwait.1 hwait.2, hpc⟩

/-! ### Requests that come later -/

theorem later_effect (hinv : Inv s) (hij : i ≠ j) (hwait : Waits s i) (hlater : Later s i j) :
    Later (effect s t) i j := by
  have hkeep : (effect s t).number i = s.number i := number_effect_of_waiting hwait.1 hwait.2
  refine ⟨doorway_effect hinv hij hwait.1 hkeep hlater.1, fun hj => ?_⟩
  unfold Before
  rw [hkeep]
  by_cases hjt : j = t
  · subst hjt
    obtain ⟨hold | hpc, hnot⟩ := behindDoorway_of_effect hj
    · rw [number_effect_of_waiting hold hnot]
      exact hlater.2 hold
    · have hdoor := hlater.1
      simp only [Doorway, hpc] at hdoor
      rw [effect_number_self (by simp [hpc]) hnot]
      exact .inl hdoor
  · rw [effect_pc_of_ne hjt] at hj
    rw [effect_number_of_ne hjt]
    exact hlater.2 hj

theorem Later.not_critical (hinv : Inv s) (hij : i ≠ j) (hwait : Waits s i) (hlater : Later s i j) :
    s.pc j ≠ .critical := by
  intro hj
  have hne := (hinv.ticket i).mpr (Pc.hasTicket_of_behindDoorway hwait.1)
  have hbefore := hlater.2 (by rw [hj]; trivial)
  exact hbefore.asymm (hinv.passed j i hij.symm (by rw [hj]; trivial) hne)

theorem Inv.critical_eq (hinv : Inv s) (hi : s.pc i = .critical) (hj : s.pc j = .critical) : i = j := by
  by_contra hij
  have hticket : ∀ k, s.pc k = .critical → s.number k ≠ 0 := fun k hk =>
    (hinv.ticket k).mpr (by rw [hk]; trivial)
  have hbefore := hinv.passed i j hij (by rw [hi]; trivial) (hticket j hj)
  exact hbefore.asymm (hinv.passed j i (Ne.symm hij) (by rw [hj]; trivial) (hticket i hi))

/-- A thread without a request comes later. -/
theorem later_of_outside (hdoor : ¬ (s.pc j).inDoorway) (hbehind : ¬ (s.pc j).behindDoorway) :
    Later s i j :=
  ⟨doorway_of_not_inDoorway hdoor, fun h => absurd h hbehind⟩

theorem before_of_not_later (hij : i ≠ j) (hbehind : (s.pc j).behindDoorway)
    (hnot : ¬ Later s i j) : Before s j i := by
  have hdoor : ¬ (s.pc j).inDoorway := by
    cases hpc : s.pc j <;> simp_all [Pc.behindDoorway, Pc.inDoorway]
  have hnotBefore : ¬ Before s i j := fun h => hnot ⟨doorway_of_not_inDoorway hdoor, fun _ => h⟩
  unfold Before at *
  omega

/-- Thread `i` waits and `j` does not come before it. -/
def Unhindered (s : State n) (i j : Fin n) : Prop := Inv s ∧ Waits s i ∧ (i ≠ j → Later s i j)

/-- No thread gets in twice while another one waits: if `j` was in its critical section at two times
between which `i` waited, it has not taken a step in between. -/
theorem overtakes_once {s s' : State n} {earlier later : List (Fin n)}
    (hrun : Run Step (initial n) earlier s) (hwait : Waits s i) (hj : s.pc j = .critical)
    (hlater : Run (Restrict Step fun s _ => s.pc i ≠ .critical) s later s')
    (hj' : s'.pc j = .critical) : j ∉ later := by
  have hij : i ≠ j := by
    rintro rfl
    exact hwait.2 hj
  -- Once `j` has left, it stays behind `i` for as long as `i` waits.
  have hkeep : Inv s' ∧ (s'.pc i).behindDoorway ∧ (j ∈ later → s'.pc i ≠ .critical → Later s' i j) ∧
      (j ∉ later → s'.pc j = .critical) := by
    clear hj'
    induction hlater with
    | nil => exact ⟨inv_of_run hrun, hwait.1, fun h => absurd h List.not_mem_nil, fun _ => hj⟩
    | @cons later s₁ s₂ e hlater hstep ih =>
      obtain ⟨hinv, hbehind, hleft, hstill⟩ := ih
      have hwait₁ : Waits s₁ i := ⟨hbehind, hstep.2⟩
      rw [hstep.1.2]
      refine ⟨inv_effect hinv, behindDoorway_effect hbehind hstep.2, fun hmem _ => ?_, fun hmem => ?_⟩
      · by_cases hold : j ∈ later
        · exact later_effect hinv hij hwait₁ (hleft hold hstep.2)
        · obtain rfl : j = e := by simpa [hold] using hmem
          have hidle : (effect s₁ j).pc j = .idle := by simp [effect, hstill hold]
          exact later_of_outside (by simp [hidle, Pc.inDoorway]) (by simp [hidle, Pc.behindDoorway])
      · obtain ⟨hne, hold⟩ := List.ne_and_not_mem_of_not_mem_cons hmem
        rw [effect_pc_of_ne hne]
        exact hstill hold
  obtain ⟨hinv, hbehind, hleft, -⟩ := hkeep
  intro hmem
  by_cases hi : s'.pc i = .critical
  · exact hij (hinv.critical_eq hi hj')
  · exact (hleft hmem hi).not_critical hinv hij ⟨hbehind, hi⟩ hj'

/-! ### Through the doorway -/

/-- The steps a thread still needs until it has announced its ticket. -/
def Pc.doorwaySteps : Pc n → ℕ
  | .setChoosing => 2 * n + 3
  | .maxTest k _ => 2 * (n - k) + 2
  | .maxRead k => 2 * (n - k) + 1
  | .writeNumber _ => 2
  | .clearChoosing => 1
  | _ => 0

theorem doorwaySteps_afterScan (k : Fin n) (numMax : ℕ) :
    (afterScan k numMax).doorwaySteps ≤ 2 * (n - k) := by
  have hk := k.isLt
  rcases afterScan_cases k numMax with ⟨k', hk', heq⟩ | ⟨-, heq⟩ <;>
    simp only [heq, Pc.doorwaySteps] <;> omega

/-- A step in the doorway leads on, and out of it to the waiting loops. -/
theorem doorway_step (hdoor : (s.pc i).inDoorway) :
    ((effect s i).pc i).inDoorway ∧
        ((effect s i).pc i).doorwaySteps < (s.pc i).doorwaySteps ∨
      ((effect s i).pc i).behindDoorway := by
  cases hpc : s.pc i with
  | maxTest k numMax =>
    have hk := k.isLt
    have hscan := doorwaySteps_afterScan k numMax
    simp only [effect, hpc, setPc_pc_self]
    split
    · exact .inl ⟨trivial, by simp only [Pc.doorwaySteps]; omega⟩
    · exact .inl ⟨inDoorway_afterScan, hscan.trans_lt (by simp [Pc.doorwaySteps])⟩
  | maxRead k =>
    have hscan := doorwaySteps_afterScan k (s.number k)
    simp only [effect, hpc, setPc_pc_self]
    exact .inl ⟨inDoorway_afterScan, hscan.trans_lt (by simp [Pc.doorwaySteps])⟩
  | writeNumber numMax =>
    simp only [effect, hpc, setPc_pc_self]
    exact .inl ⟨trivial, by simp [Pc.doorwaySteps]⟩
  | clearChoosing =>
    simp only [effect, hpc, setPc_pc_self]
    exact .inr trivial
  | _ => simp [hpc, Pc.inDoorway] at hdoor

/-! ### Endless runs -/

/-- Every thread inside `bakery_lock` or in its critical section gets a step at some time. -/
def KeepsStepping (run : Endless Step (initial n)) : Prop :=
  ∀ i, run.Fair (fun s => s.pc i ≠ .idle) (· = i)

section Endless

variable {run : Endless Step (initial n)} (hfair : KeepsStepping run)
include hfair

omit hfair in
theorem inv_of_endless (run : Endless Step (initial n)) (k : ℕ) : Inv (run.state k) :=
  run.invariant inv_initial (fun s _ s' hinv hstep => by
    rw [hstep.2]
    exact inv_effect hinv) k

theorem doorway_leadsTo (i : Fin n) :
    run.LeadsTo (fun s => (s.pc i).inDoorway) fun s => (s.pc i).behindDoorway := by
  refine Endless.ensures_rank (fun s => (s.pc i).doorwaySteps) (hfair i)
    (fun s hdoor hpc => by simp [hpc, Pc.inDoorway] at hdoor) ?_ ?_
  · rintro s _ s' hdoor ⟨-, rfl⟩ rfl
    exact doorway_step hdoor
  · rintro s e s' hdoor ⟨-, rfl⟩ hne
    rw [effect_pc_of_ne (Ne.symm hne)]
    exact .inl ⟨hdoor, le_rfl⟩

theorem critical_leadsTo_idle (i : Fin n) :
    run.LeadsTo (fun s => s.pc i = .critical) fun s => s.pc i = .idle := by
  refine Endless.ensures (hfair i) (fun s hpc hidle => by simp [hpc] at hidle) ?_ ?_
  · rintro s e s' hpc ⟨-, rfl⟩
    by_cases he : i = e
    · subst he
      exact .inr (by simp [effect, hpc])
    · rw [effect_pc_of_ne he]
      exact .inl hpc
  · rintro s _ s' hpc ⟨-, rfl⟩ rfl
    simp [effect, hpc]

/-! ### Past one other thread -/

omit hfair in
/-- A thread outside the lock stays there or goes into the doorway. -/
theorem outside_effect (hdoor : ¬ (s.pc j).inDoorway) (hbehind : ¬ (s.pc j).behindDoorway) :
    ((effect s t).pc j).inDoorway ∨
      ¬ ((effect s t).pc j).inDoorway ∧ ¬ ((effect s t).pc j).behindDoorway := by
  by_cases hj : j = t
  · subst hj
    cases hpc : s.pc j with
    | idle => exact .inr (by simp [effect, hpc, Pc.inDoorway, Pc.behindDoorway])
    | setChoosing => exact .inl (by simp [effect, hpc, Pc.inDoorway])
    | _ => simp_all [Pc.inDoorway, Pc.behindDoorway]
  · rw [effect_pc_of_ne hj]
    exact .inr ⟨hdoor, hbehind⟩

omit hfair in
theorem unhindered_effect (h : Unhindered s i j) :
    Unhindered (effect s t) i j ∨ (effect s t).pc i = .critical := by
  obtain ⟨hinv, hwait, hlater⟩ := h
  rcases waits_effect (t := t) hwait with hwait' | hin
  · exact .inl ⟨inv_effect hinv, hwait', fun hij => later_effect hinv hij hwait (hlater hij)⟩
  · exact .inr hin

omit hfair in
theorem Unhindered.not_critical (h : Unhindered s i j) : s.pc j ≠ .critical := by
  obtain ⟨hinv, hwait, hlater⟩ := h
  by_cases hij : i = j
  · exact hij ▸ hwait.2
  · exact (hlater hij).not_critical hinv hij hwait

/-- A thread that does not come before `i` does not hold it in the first loop: it may be choosing a
ticket, but only once. -/
theorem waitChoosing_leadsTo (i j : Fin n) :
    run.LeadsTo (fun s => Unhindered s i j ∧ s.pc i = .waitChoosing j)
      fun s => Unhindered s i j ∧ s.pc i = .testZero j := by
  have hready : ∀ s : State n, s.pc i = .waitChoosing j → s.pc i ≠ .idle := fun s hpc => by simp [hpc]
  -- Where `choosing[j]` is down the test of `i` lets it pass, otherwise `i` stays where it is.
  have hself : ∀ {s : State n}, Unhindered s i j → s.pc i = .waitChoosing j →
      Unhindered (effect s i) i j ∧ (effect s i).pc i =
        if s.choosing j then .waitChoosing j else .testZero j := fun {s} h hpc => by
    have hpc' : (effect s i).pc i = if s.choosing j then .waitChoosing j else .testZero j := by
      simp [effect, hpc]
    refine ⟨(unhindered_effect h).resolve_right ?_, hpc'⟩
    rw [hpc']
    split <;> simp
  have hpass : ∀ {s : State n}, Unhindered s i j → s.pc i = .waitChoosing j →
      ¬ (s.pc j).inDoorway → Unhindered (effect s i) i j ∧ (effect s i).pc i = .testZero j :=
    fun h hpc hdoor => by
      have hdown := mt (h.1.choosing j).mp hdoor
      simpa [hdown] using hself h hpc
  have hkeep : ∀ (s : State n) (e : Fin n) s', Unhindered s i j ∧ s.pc i = .waitChoosing j →
      Step s e s' → (Unhindered s' i j ∧ s'.pc i = .waitChoosing j) ∨
        (Unhindered s' i j ∧ s'.pc i = .testZero j) := by
    rintro s e s' ⟨h, hpc⟩ ⟨-, rfl⟩
    by_cases hi : i = e
    · subst hi
      obtain ⟨h', hpc'⟩ := hself h hpc
      rw [hpc']
      split
      · exact .inl ⟨h', rfl⟩
      · exact .inr ⟨h', rfl⟩
    · have hpc' : (effect s e).pc i = .waitChoosing j := by rw [effect_pc_of_ne hi, hpc]
      exact .inl ⟨(unhindered_effect h).resolve_right (by simp [hpc']), hpc'⟩
  -- Behind its doorway `j` stays there, with its entry down.
  have hbehind : run.LeadsTo
      (fun s => (s.pc j).behindDoorway ∧ Unhindered s i j ∧ s.pc i = .waitChoosing j)
      fun s => Unhindered s i j ∧ s.pc i = .testZero j := by
    refine Endless.ensures (hfair i) (fun s h => hready s h.2.2) ?_ ?_
    · rintro s e s' ⟨hj, h⟩ hstep
      refine (hkeep s e s' h hstep).imp (fun h' => ⟨?_, h'⟩) id
      rw [hstep.2]
      exact behindDoorway_effect hj h.1.not_critical
    · rintro s _ s' ⟨hj, h, hpc⟩ ⟨-, rfl⟩ rfl
      refine hpass h hpc fun hdoor => ?_
      cases hpc' : s.pc j <;> simp_all [Pc.behindDoorway, Pc.inDoorway]
  have hdoorway : run.LeadsTo
      (fun s => (s.pc j).inDoorway ∧ Unhindered s i j ∧ s.pc i = .waitChoosing j)
      fun s => Unhindered s i j ∧ s.pc i = .testZero j :=
    ((doorway_leadsTo hfair j).carry hkeep).trans (hbehind.or (.of_imp fun _ h => h))
  have houtside : run.LeadsTo
      (fun s => (¬ (s.pc j).inDoorway ∧ ¬ (s.pc j).behindDoorway) ∧ Unhindered s i j ∧
        s.pc i = .waitChoosing j)
      fun s => ((s.pc j).inDoorway ∧ Unhindered s i j ∧ s.pc i = .waitChoosing j) ∨
        Unhindered s i j ∧ s.pc i = .testZero j := by
    refine Endless.ensures (hfair i) (fun s h => hready s h.2.2) ?_ ?_
    · rintro s e s' ⟨⟨hdoor, hout⟩, h⟩ hstep
      rcases hkeep s e s' h hstep with h' | h'
      · rcases outside_effect (t := e) hdoor hout with hin | hout'
        · exact .inr (.inl ⟨by rwa [hstep.2], h'⟩)
        · exact .inl ⟨by rwa [hstep.2], h'⟩
      · exact .inr (.inr h')
    · rintro s _ s' ⟨⟨hdoor, -⟩, h, hpc⟩ ⟨-, rfl⟩ rfl
      exact .inr (hpass h hpc hdoor)
  intro k h
  by_cases hdoor : ((run.state k).pc j).inDoorway
  · exact hdoorway k ⟨hdoor, h⟩
  by_cases hbe : ((run.state k).pc j).behindDoorway
  · exact hbehind k ⟨hbe, h⟩
  exact (houtside.trans (hdoorway.or (.of_imp fun _ h => h))) k ⟨⟨hdoor, hbe⟩, h⟩

omit hfair in
/-- Where `j` holds a ticket at all, the one of `i` is served first. -/
theorem Unhindered.before (h : Unhindered s i j) (hij : i ≠ j) (hne : s.number j ≠ 0) :
    Before s i j := by
  obtain ⟨hinv, -, hlater⟩ := h
  have hticket := (hinv.ticket j).mp hne
  cases hpc : s.pc j with
  | clearChoosing =>
    have hdoor := (hlater hij).1
    simp only [Doorway, hpc] at hdoor
    exact .inl hdoor
  | waitChoosing | testZero | testLess | testEqual | critical =>
    exact (hlater hij).2 (by rw [hpc]; trivial)
  | _ => simp [hpc, Pc.hasTicket] at hticket

omit hfair in
/-- While `i` waits, `j` does not give a ticket back. -/
theorem Unhindered.number_ne_zero (h : Unhindered s i j) (hne : s.number j ≠ 0) :
    (effect s t).number j ≠ 0 := by
  by_cases hj : j = t
  · subst hj
    by_cases hwrite : ∃ numMax, s.pc j = .writeNumber numMax
    · obtain ⟨numMax, hpc⟩ := hwrite
      simp [effect, hpc]
    · rwa [effect_number_self (not_exists.mp hwrite) h.not_critical]
  · rwa [effect_number_of_ne hj]

/-- The steps `i` needs at most to get past `j` in the second loop, if it comes first. A comparison with
a ticket that has been given back sends `i` round the loop once more. -/
def testsLeft (s : State n) (i j : Fin n) : ℕ :=
  match s.pc i with
  | .testZero _ => 3
  | .testLess _ => if s.number j = 0 then 4 else 2
  | .testEqual _ => 1
  | _ => 0

/-- Thread `i` is in its second loop for `j`. -/
def Tests (s : State n) (i j : Fin n) : Prop :=
  s.pc i = .testZero j ∨ s.pc i = .testLess j ∨ s.pc i = .testEqual j

omit hfair in
theorem tests_step (h : Unhindered s i j) (htests : Tests s i j) :
    (Tests (effect s i) i j ∧ testsLeft (effect s i) i j < testsLeft s i j) ∨
      ((effect s i).pc i).passed j := by
  have hpos : s.number i ≠ 0 := (h.1.ticket i).mpr (Pc.hasTicket_of_behindDoorway h.2.1.1)
  have hself : i = j → s.number j = s.number i := fun hij => by rw [hij]
  rcases htests with hpc | hpc | hpc
  · by_cases hzero : s.number j = 0
    · rw [pc_effect_testZero hpc hzero]
      exact .inr (passed_afterWait.mpr le_rfl)
    · have hpc' : (effect s i).pc i = .testLess j := by simp [effect, hpc, hzero]
      have hnumber : (effect s i).number j = s.number j := by simp [effect, hpc]
      refine .inl ⟨.inr (.inl hpc'), ?_⟩
      simp [testsLeft, hpc, hpc', hnumber, hzero]
  · have hnumber : (effect s i).number j = s.number j := by simp [effect, hpc]
    by_cases hzero : s.number j = 0
    · have hpc' : (effect s i).pc i = .testZero j := by
        simp [effect, hpc, hzero, Nat.pos_of_ne_zero hpos]
      refine .inl ⟨.inl hpc', ?_⟩
      simp [testsLeft, hpc, hpc', hzero]
    · have hle : ¬ s.number j < s.number i := by
        by_cases hij : i = j
        · have := hself hij
          omega
        · exact not_lt.mpr (h.before hij hzero).le
      have hpc' : (effect s i).pc i = .testEqual j := by simp [effect, hpc, hle]
      refine .inl ⟨.inr (.inr hpc'), ?_⟩
      simp [testsLeft, hpc, hpc', hzero]
  · have hnot : ¬ (s.number j = s.number i ∧ j < i) := by
      rintro ⟨heq, hlt⟩
      have hbefore := h.before (Ne.symm (ne_of_lt hlt)) (by omega)
      unfold Before at hbefore
      omega
    rw [pc_effect_testEqual hpc hnot]
    exact .inr (passed_afterWait.mpr le_rfl)

omit hfair in
theorem testsLeft_effect_of_ne (h : Unhindered s i j) (hi : i ≠ t) :
    testsLeft (effect s t) i j ≤ testsLeft s i j := by
  unfold testsLeft
  rw [effect_pc_of_ne hi]
  split
  · exact le_rfl
  · have hkeep := h.number_ne_zero (t := t)
    split_ifs <;> simp_all
  · exact le_rfl
  · exact le_rfl

/-- A thread that does not come before `i` does not hold it in the second loop. -/
theorem tests_leadsTo (i j : Fin n) :
    run.LeadsTo (fun s => Unhindered s i j ∧ Tests s i j) fun s => (s.pc i).passed j := by
  refine Endless.ensures_rank (fun s => testsLeft s i j) (hfair i) ?_ ?_ ?_
  · rintro s ⟨-, hpc | hpc | hpc⟩ <;> simp [hpc]
  · rintro s _ s' ⟨h, htests⟩ ⟨-, rfl⟩ rfl
    refine (tests_step h htests).imp (fun ⟨htests', hlt⟩ => ⟨⟨?_, htests'⟩, hlt⟩) id
    refine (unhindered_effect h).resolve_right ?_
    rcases htests' with hpc | hpc | hpc <;> simp [hpc]
  · rintro s e s' ⟨h, htests⟩ ⟨-, rfl⟩ hne
    have htests' : Tests (effect s e) i j := by
      unfold Tests
      rwa [effect_pc_of_ne (Ne.symm hne)]
    refine .inl ⟨⟨(unhindered_effect h).resolve_right ?_, htests'⟩,
      testsLeft_effect_of_ne h (Ne.symm hne)⟩
    rcases htests' with hpc | hpc | hpc <;> simp [hpc]

/-- Thread `i` gets past every thread that does not come before it. -/
theorem passes_leadsTo (i j : Fin n) :
    run.LeadsTo (fun s => Unhindered s i j ∧ (s.pc i = .waitChoosing j ∨ Tests s i j))
      fun s => (s.pc i).passed j := by
  rintro k ⟨h, hpc | htests⟩
  · obtain ⟨l, hkl, h', hpc'⟩ := waitChoosing_leadsTo hfair i j k ⟨h, hpc⟩
    obtain ⟨m, hlm, hpassed⟩ := tests_leadsTo hfair i j l ⟨h', .inl hpc'⟩
    exact ⟨m, hkl.trans hlm, hpassed⟩
  · exact tests_leadsTo hfair i j k ⟨h, htests⟩

/-! ### Every request is served -/

/-- If the requests served before the one of `i` get through, then every other thread comes after `i` at
some time. -/
theorem settles {k : ℕ}
    (hearlier : ∀ j m, k ≤ m → Before (run.state m) j i → Waits (run.state m) j →
      ∃ l, m ≤ l ∧ (run.state l).pc j = .critical) (hij : i ≠ j) :
    ∃ m, k ≤ m ∧ Later (run.state m) i j := by
  by_contra! hnever
  -- A thread that has given its ticket back would be later, so `j` never does.
  have hbusy : ∀ m, k ≤ m → (run.state m).pc j ≠ .critical := fun m hkm hpc => by
    obtain ⟨l, hml, hidle⟩ := critical_leadsTo_idle hfair j m hpc
    exact hnever l (by omega)
      (later_of_outside (by simp [hidle, Pc.inDoorway]) (by simp [hidle, Pc.behindDoorway]))
  have hin : ∃ m, k ≤ m ∧ ((run.state m).pc j).behindDoorway := by
    by_cases hdoor : ((run.state k).pc j).inDoorway
    · exact doorway_leadsTo hfair j k hdoor
    · refine ⟨k, le_rfl, ?_⟩
      by_contra hbehind
      exact hnever k le_rfl (later_of_outside hdoor hbehind)
  obtain ⟨m, hkm, hbehind⟩ := hin
  obtain ⟨l, hml, hcritical⟩ := hearlier j m hkm
    (before_of_not_later hij hbehind (hnever m hkm)) ⟨hbehind, hbusy m hkm⟩
  exact hbusy l (by omega) hcritical

omit hfair in
/-- A waiting thread is in a loop for some `j` and done with the threads before it. -/
theorem Waits.exists_loop (hwait : Waits s i) :
    ∃ j, (s.pc i = .waitChoosing j ∨ Tests s i j) ∧ ∀ j', (s.pc i).passed j' ↔ j' < j := by
  obtain ⟨hbehind, hnot⟩ := hwait
  cases hpc : s.pc i with
  | waitChoosing j => exact ⟨j, .inl rfl, fun _ => Iff.rfl⟩
  | testZero j => exact ⟨j, .inr (.inl hpc), fun _ => Iff.rfl⟩
  | testLess j => exact ⟨j, .inr (.inr (.inl hpc)), fun _ => Iff.rfl⟩
  | testEqual j => exact ⟨j, .inr (.inr (.inr hpc)), fun _ => Iff.rfl⟩
  | critical => exact absurd hpc hnot
  | _ => simp [hpc, Pc.behindDoorway] at hbehind

/-- If every other thread comes after `i` from some time on, then `i` does not wait forever. -/
theorem not_waits_forever {k : ℕ} (hfree : ∀ m, k ≤ m → ∀ j, Unhindered (run.state m) i j) : False := by
  -- One thread after another is passed.
  have hpassed : ∀ v, v ≤ n → ∃ m, k ≤ m ∧ ∀ j : Fin n, j.val < v → ((run.state m).pc i).passed j := by
    intro v
    induction v with
    | zero => exact fun _ => ⟨k, le_rfl, fun j hj => absurd hj (Nat.not_lt_zero _)⟩
    | succ v ih =>
      intro hv
      obtain ⟨m, hkm, hall⟩ := ih (by omega)
      let j : Fin n := ⟨v, by omega⟩
      have hnext : ∃ l, m ≤ l ∧ ((run.state l).pc i).passed j := by
        by_cases hdone : ((run.state m).pc i).passed j
        · exact ⟨m, le_rfl, hdone⟩
        · obtain ⟨j₀, hloop, hiff⟩ := (hfree m hkm j).2.1.exists_loop
          have heq : j₀ = j := by
            have hge : ¬ j < j₀ := fun h => hdone ((hiff j).mpr h)
            by_contra hne
            have hlt : j₀ < j := by omega
            exact absurd ((hiff j₀).mp (hall j₀ hlt)) (lt_irrefl _)
          rw [heq] at hloop
          exact passes_leadsTo hfair i j m ⟨hfree m hkm j, hloop⟩
      obtain ⟨l, hml, hj⟩ := hnext
      obtain ⟨j₁, -, hiff⟩ := (hfree l (by omega) j).2.1.exists_loop
      refine ⟨l, by omega, fun j' hj' => (hiff j').mpr ?_⟩
      exact lt_of_le_of_lt (Nat.lt_succ_iff.mp hj') ((hiff j).mp hj)
  obtain ⟨m, hkm, hall⟩ := hpassed n le_rfl
  obtain ⟨j, -, hiff⟩ := (hfree m hkm i).2.1.exists_loop
  exact lt_irrefl j ((hiff j).mp (hall j j.isLt))

theorem waits_leadsTo_critical (i : Fin n) :
    run.LeadsTo (fun s => Waits s i) fun s => s.pc i = .critical := by
  -- By induction on the order of service: what is served before `i` gets through.
  have hgo : ∀ (ticket : ℕ ×ₗ Fin n) i k, toLex ((run.state k).number i, i) = ticket →
      Waits (run.state k) i → ∃ m, k ≤ m ∧ (run.state m).pc i = .critical := by
    intro ticket
    induction ticket using WellFoundedLT.induction with
    | ind ticket ih =>
      intro i k hticket hwait
      by_contra! hnever
      have hstays : ∀ m, k ≤ m → Waits (run.state m) i ∧
          (run.state m).number i = (run.state k).number i := by
        intro m hkm
        refine (run.holds_until (P := fun s => Waits s i ∧ s.number i = (run.state k).number i)
          (B := fun s => s.pc i = .critical) ?_ ⟨hwait, rfl⟩ hkm).resolve_right ?_
        · rintro s e s' ⟨hw, hnumber⟩ ⟨-, rfl⟩
          refine (waits_effect hw).imp (fun hw' => ⟨hw', ?_⟩) id
          rw [number_effect_of_waiting hw.1 hw.2, hnumber]
        · rintro ⟨l, hkl, -, hin⟩
          exact hnever l hkl hin
      have hearlier : ∀ j m, k ≤ m → Before (run.state m) j i → Waits (run.state m) j →
          ∃ l, m ≤ l ∧ (run.state l).pc j = .critical := by
        intro j m hkm hbefore hwait'
        refine ih _ ?_ j m rfl hwait'
        rw [← hticket, ← (hstays m hkm).2, Prod.Lex.toLex_lt_toLex]
        exact hbefore
      -- From the last of these times on, all other threads come after `i`.
      have hsettled : ∀ j, ∃ m, k ≤ m ∧ (i ≠ j → Later (run.state m) i j) := by
        intro j
        by_cases hij : i = j
        · exact ⟨k, le_rfl, fun hne => absurd hij hne⟩
        · obtain ⟨m, hkm, hlater⟩ := settles hfair hearlier hij
          exact ⟨m, hkm, fun _ => hlater⟩
      choose time htime using hsettled
      refine not_waits_forever hfair (i := i) (k := k + Finset.univ.sup time) fun m hm j => ?_
      refine ⟨inv_of_endless run m, (hstays m (by omega)).1, fun hij => ?_⟩
      have hle : time j ≤ m := (Finset.le_sup (Finset.mem_univ j)).trans (by omega)
      refine ((run.holds_until (P := fun s => Inv s ∧ Waits s i ∧ Later s i j)
        (B := fun s => s.pc i = .critical) ?_
        ⟨inv_of_endless run _, (hstays _ (htime j).1).1, (htime j).2 hij⟩ hle).resolve_right ?_).2.2
      · rintro s e s' ⟨hinv, hw, hlater⟩ ⟨-, rfl⟩
        exact (waits_effect hw).imp
          (fun hw' => ⟨inv_effect hinv, hw', later_effect hinv hij hw hlater⟩) id
      · rintro ⟨l, hl, -, hin⟩
        exact hnever l ((htime j).1.trans hl) hin
  exact fun k hwait => hgo _ i k rfl hwait

end Endless

/-- If every thread inside the lock goes on getting steps, each call of `bakery_lock` returns. -/
theorem lock_returns (run : Endless Step (initial n)) (hfair : KeepsStepping run) (i : Fin n) :
    run.LeadsTo (fun s => s.pc i ≠ .idle) fun s => s.pc i = .critical := by
  have hbehind : run.LeadsTo (fun s => (s.pc i).behindDoorway) fun s => s.pc i = .critical := by
    intro k hbehind
    by_cases hin : (run.state k).pc i = .critical
    · exact ⟨k, le_rfl, hin⟩
    · exact waits_leadsTo_critical hfair i k ⟨hbehind, hin⟩
  have hdoorway := (doorway_leadsTo hfair i).trans hbehind
  have hset : run.LeadsTo (fun s => s.pc i = .setChoosing) fun s => (s.pc i).inDoorway := by
    refine Endless.ensures (hfair i) (fun s hpc => by simp [hpc]) ?_ ?_
    · rintro s e s' hpc ⟨-, rfl⟩
      by_cases hi : i = e
      · subst hi
        exact .inr (by simp [effect, hpc, Pc.inDoorway])
      · exact .inl (by rw [effect_pc_of_ne hi, hpc])
    · rintro s _ s' hpc ⟨-, rfl⟩ rfl
      simp [effect, hpc, Pc.inDoorway]
  intro k hne
  cases hpc : (run.state k).pc i with
  | idle => exact absurd hpc hne
  | setChoosing => exact hset.trans hdoorway k hpc
  | maxTest | maxRead | writeNumber | clearChoosing => exact hdoorway k (by simp [hpc, Pc.inDoorway])
  | _ => exact hbehind k (by simp [hpc, Pc.behindDoorway])

/-- Two threads that take steps in turns. -/
def inTurns : Endless Step (initial 2) :=
  .follow effect (initial 2) fun k => if k % 2 = 0 then 0 else 1

theorem keepsStepping_inTurns : KeepsStepping inTurns := by
  intro i k _
  refine ⟨2 * k + i, i, by omega, congrArg some ?_, rfl⟩
  obtain rfl | rfl : i = 0 ∨ i = 1 := by omega
  · exact if_pos (by simp)
  · exact if_neg (by simp)

theorem lock_returns_inTurns : ∃ m, 2 ≤ m ∧ (inTurns.state m).pc 1 = .critical :=
  lock_returns inTurns keepsStepping_inTurns 1 2 (by decide)

/-- After these steps the first thread holds the lock and the second one waits for it. -/
def firstServed : List (Fin 2) :=
  [0, 0, 0, 0, 0, 0, 1, 1, 1, 1, 1, 1, 1, 1, 0, 0, 0, 0, 0, 0, 0, 0]

theorem overtakes_once_firstServed :
    (0 : Fin 2) ∉ [1, (1 : Fin 2)] ∧ (execute effect (initial 2) firstServed).pc 0 = .critical := by
  have hrun : Run Step (initial 2) firstServed.reverse (execute effect (initial 2) firstServed) :=
    run_execute (by decide +kernel)
  have hlater : Run (Restrict Step fun s _ => s.pc 1 ≠ .critical)
      (execute effect (initial 2) firstServed) [1, 1].reverse
      (execute effect (execute effect (initial 2) firstServed) [1, 1]) :=
    run_execute_restrict (by decide +kernel)
  have hpc : (execute effect (initial 2) firstServed).pc 1 = .testZero 0 := by decide +kernel
  have hwait : Waits (execute effect (initial 2) firstServed) 1 := by
    simp [Waits, hpc, Pc.behindDoorway]
  exact ⟨overtakes_once hrun hwait (by decide +kernel) hlater (by decide +kernel), by decide +kernel⟩

end Multicore.Bakery
