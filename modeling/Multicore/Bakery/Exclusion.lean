import Mathlib.Order.Fin.Basic
import Multicore.Bakery.Model

/-!
# One thread at a time

The invariant relates every pair of threads. A thread `i` that has seen `choosing[j]` down knows two
things about the ticket that `j` draws afterwards: the scan of `j` starts later, so it meets the ticket
of `i`, and what it has met it keeps (`Doorway`). Hence a ticket that is drawn behind the back of `i` is
larger than its own, and the outcome of the comparison of `i` with `j` stays right for as long as `i`
holds its ticket.

Within the scan there is one gap: between comparing a ticket and keeping it that ticket may be given
back. It is then larger than the ticket of `i`, and its holder cannot have got past `i`.
-/

namespace Multicore.Bakery

variable {n : ℕ}

/-! ### Where a thread is -/

/-- The thread has drawn its ticket and not yet given it back. -/
def Pc.hasTicket : Pc n → Prop
  | .clearChoosing | .waitChoosing _ | .testZero _ | .testLess _ | .testEqual _ | .critical => True
  | _ => False

/-- The thread is drawing a ticket, with its `choosing` entry up. -/
def Pc.inDoorway : Pc n → Prop
  | .maxTest _ _ | .maxRead _ | .writeNumber _ | .clearChoosing => True
  | _ => False

/-- The thread has its ticket and has announced so. -/
def Pc.behindDoorway : Pc n → Prop
  | .waitChoosing _ | .testZero _ | .testLess _ | .testEqual _ | .critical => True
  | _ => False

/-- The thread has seen `choosing[j]` down since it drew its ticket. -/
def Pc.sawChosen (j : Fin n) : Pc n → Prop
  | .waitChoosing k => j < k
  | .testZero k | .testLess k | .testEqual k => j ≤ k
  | .critical => True
  | _ => False

/-- The thread is done with waiting for `j`. -/
def Pc.passed (j : Fin n) : Pc n → Prop
  | .waitChoosing k | .testZero k | .testLess k | .testEqual k => j < k
  | .critical => True
  | _ => False

theorem Pc.behindDoorway_of_sawChosen {j : Fin n} {pc : Pc n} (h : pc.sawChosen j) :
    pc.behindDoorway := by
  cases pc <;> trivial

theorem Pc.hasTicket_of_behindDoorway {pc : Pc n} (h : pc.behindDoorway) : pc.hasTicket := by
  cases pc <;> trivial

theorem Pc.sawChosen_of_passed {j : Fin n} {pc : Pc n} (h : pc.passed j) : pc.sawChosen j := by
  cases pc with
  | testZero k | testLess k | testEqual k => exact le_of_lt h
  | _ => exact h

theorem sawChosen_afterWait {j k : Fin n} : (afterWait k).sawChosen j ↔ j ≤ k := by
  unfold afterWait
  split
  · exact Nat.lt_succ_iff
  · exact ⟨fun _ => by omega, fun _ => trivial⟩

theorem passed_afterWait {j k : Fin n} : (afterWait k).passed j ↔ j ≤ k := by
  unfold afterWait
  split
  · exact Nat.lt_succ_iff
  · exact ⟨fun _ => by omega, fun _ => trivial⟩

@[simp] theorem hasTicket_afterWait {k : Fin n} : (afterWait k).hasTicket := by
  unfold afterWait
  split <;> trivial

@[simp] theorem not_inDoorway_afterWait {k : Fin n} : ¬ (afterWait k).inDoorway := by
  unfold afterWait
  split <;> exact id

@[simp] theorem inDoorway_afterScan {k : Fin n} {numMax : ℕ} : (afterScan k numMax).inDoorway := by
  unfold afterScan
  split <;> trivial

@[simp] theorem not_hasTicket_afterScan {k : Fin n} {numMax : ℕ} :
    ¬ (afterScan k numMax).hasTicket := by
  unfold afterScan
  split <;> exact id

theorem not_sawChosen_afterScan {j k : Fin n} {numMax : ℕ} :
    ¬ (afterScan k numMax).sawChosen j := fun hsaw =>
  not_hasTicket_afterScan (Pc.hasTicket_of_behindDoorway (Pc.behindDoorway_of_sawChosen hsaw))

theorem not_passed_afterScan {j k : Fin n} {numMax : ℕ} : ¬ (afterScan k numMax).passed j :=
  fun hpassed => not_sawChosen_afterScan (Pc.sawChosen_of_passed hpassed)

@[simp] theorem afterScan_ne_testEqual {j k : Fin n} {numMax : ℕ} :
    afterScan k numMax ≠ .testEqual j := by
  unfold afterScan
  split <;> simp

@[simp] theorem afterWait_ne_testEqual {j k : Fin n} : afterWait k ≠ .testEqual j := by
  unfold afterWait
  split <;> simp

theorem afterScan_cases (k : Fin n) (numMax : ℕ) :
    (∃ k' : Fin n, k'.val = k.val + 1 ∧ afterScan k numMax = .maxTest k' numMax) ∨
      (k.val + 1 = n ∧ afterScan k numMax = .writeNumber numMax) := by
  unfold afterScan
  split
  · exact .inl ⟨_, rfl, rfl⟩
  · exact .inr ⟨by omega, rfl⟩

/-! ### The invariant -/

/-- Thread `i` is served before thread `j`: the smaller ticket, and the smaller index among equal
ones. -/
def Before (s : State n) (i j : Fin n) : Prop :=
  s.number i < s.number j ∨ (s.number i = s.number j ∧ i < j)

theorem Before.asymm {s : State n} {i j : Fin n} (h : Before s i j) : ¬ Before s j i := by
  unfold Before at *
  omega

theorem Before.le {s : State n} {i j : Fin n} (h : Before s i j) : s.number i ≤ s.number j := by
  unfold Before at h
  omega

/-- The ticket thread `j` is about to draw is larger than the one of `i`: the scan of `j` has not
come to `i` yet, or what it keeps is at least the ticket of `i`. -/
def Doorway (s : State n) (i j : Fin n) : Prop :=
  match s.pc j with
  | .maxTest k numMax => i < k → s.number i ≤ numMax
  | .maxRead k => i < k → s.number i < s.number k
  | .writeNumber numMax => s.number i ≤ numMax
  | .clearChoosing => s.number i < s.number j
  | _ => True

structure Inv (s : State n) : Prop where
  ticket : ∀ i, s.number i ≠ 0 ↔ (s.pc i).hasTicket
  choosing : ∀ i, s.choosing i = true ↔ (s.pc i).inDoorway
  doorway : ∀ i j, i ≠ j → (s.pc i).sawChosen j → Doorway s i j
  notLess : ∀ i j, s.pc i = .testEqual j → s.number j = 0 ∨ s.number i ≤ s.number j
  passed : ∀ i j, i ≠ j → (s.pc i).passed j → s.number j ≠ 0 → Before s i j

theorem inv_initial : Inv (initial n) where
  ticket i := by simp [initial, Pc.hasTicket]
  choosing i := by simp [initial, Pc.inDoorway]
  doorway i j _ hsaw := hsaw.elim
  notLess i j hpc := by cases hpc
  passed i j _ hpassed := hpassed.elim

theorem doorway_of_not_inDoorway {s : State n} {i j : Fin n} (h : ¬ (s.pc j).inDoorway) :
    Doorway s i j := by
  unfold Doorway
  split <;> simp_all [Pc.inDoorway]

/-- The scan goes on after `k`, keeping at least the ticket of `i` if it has met it. -/
theorem doorway_afterScan {s : State n} {i j k : Fin n} {m : ℕ}
    (hpc : s.pc j = afterScan k m) (hmet : i ≤ k → s.number i ≤ m) : Doorway s i j := by
  unfold Doorway
  rcases afterScan_cases k m with ⟨k', hk', heq⟩ | ⟨hk, heq⟩
  · rw [hpc, heq]
    intro hlt
    exact hmet (by omega)
  · rw [hpc, heq]
    exact hmet (by omega)

section Step

variable {s : State n} {i j t : Fin n}

/-- A thread has a ticket and shows `choosing` in the parts of `bakery_lock` that say so. -/
theorem ticket_choosing_effect (hinv : Inv s) :
    ((effect s t).number i ≠ 0 ↔ ((effect s t).pc i).hasTicket) ∧
      ((effect s t).choosing i = true ↔ ((effect s t).pc i).inDoorway) := by
  by_cases hi : i = t
  · subst hi
    have hticket := hinv.ticket i
    have hchoosing := hinv.choosing i
    -- The scan stays in the doorway and the waiting loops behind it.
    cases hpc : s.pc i with
    | maxTest k numMax =>
      simp only [effect, hpc, setPc_number, setPc_choosing, setPc_pc_self]
      rw [hpc] at hticket hchoosing
      split
      · exact ⟨hticket, hchoosing⟩
      · exact ⟨hticket.trans (iff_of_false id not_hasTicket_afterScan),
          hchoosing.trans (iff_of_true trivial inDoorway_afterScan)⟩
    | maxRead k =>
      simp only [effect, hpc, setPc_number, setPc_choosing, setPc_pc_self]
      rw [hpc] at hticket hchoosing
      exact ⟨hticket.trans (iff_of_false id not_hasTicket_afterScan),
        hchoosing.trans (iff_of_true trivial inDoorway_afterScan)⟩
    | waitChoosing j | testLess j =>
      simp only [effect, hpc, setPc_number, setPc_choosing, setPc_pc_self]
      rw [hpc] at hticket hchoosing
      split <;> exact ⟨hticket, hchoosing⟩
    | testZero j | testEqual j =>
      simp only [effect, hpc, setPc_number, setPc_choosing, setPc_pc_self]
      rw [hpc] at hticket hchoosing
      split
      · exact ⟨hticket, hchoosing⟩
      · exact ⟨hticket.trans (iff_of_true trivial hasTicket_afterWait),
          hchoosing.trans (iff_of_false id not_inDoorway_afterWait)⟩
    | _ => simp_all [effect, Pc.hasTicket, Pc.inDoorway]
  · rw [effect_number_of_ne hi, effect_choosing_of_ne hi, effect_pc_of_ne hi]
    exact ⟨hinv.ticket i, hinv.choosing i⟩

/-- A ticket above the one of a thread behind its doorway is not given back: its holder cannot have
passed that thread. -/
theorem number_effect_of_lt (hinv : Inv s) (hi : (s.pc i).behindDoorway) (hit : i ≠ t)
    (hlt : s.number i < s.number t) : (effect s t).number t = s.number t := by
  apply effect_number_self
  · intro numMax hpc
    have hticket := (hinv.ticket t).mp (by omega)
    rw [hpc] at hticket
    exact hticket
  · intro hpc
    have hpos := (hinv.ticket i).mpr (Pc.hasTicket_of_behindDoorway hi)
    have hbefore := hinv.passed t i hit.symm (by rw [hpc]; trivial) hpos
    have hle := hbefore.le
    omega

/-- While `i` keeps its ticket, the ticket of `j` stays above it through the doorway of `j`. -/
theorem doorway_effect (hinv : Inv s) (hij : i ≠ j) (hi : (s.pc i).behindDoorway)
    (hkeep : (effect s t).number i = s.number i) (hdoor : Doorway s i j) :
    Doorway (effect s t) i j := by
  by_cases hj : j = t
  · subst hj
    cases hpc : s.pc j with
    | setChoosing =>
      simp only [Doorway, effect, hpc, setPc_pc_self]
      exact fun hlt => absurd hlt (Nat.not_lt_zero _)
    | maxTest k numMax =>
      simp only [Doorway, hpc] at hdoor
      by_cases hlt : numMax < s.number k
      · simp only [Doorway, effect, hpc, hlt, if_true, setPc_pc_self, setPc_number]
        exact fun hik => (hdoor hik).trans_lt hlt
      · apply doorway_afterScan (k := k) (m := numMax)
        · simp [effect, hpc, hlt]
        · intro hik
          rw [hkeep]
          rcases hik.lt_or_eq with hik | rfl
          · exact hdoor hik
          · omega
    | maxRead k =>
      simp only [Doorway, hpc] at hdoor
      apply doorway_afterScan (k := k) (m := s.number k)
      · simp [effect, hpc]
      · intro hik
        rw [hkeep]
        rcases hik.lt_or_eq with hik | rfl
        · exact (hdoor hik).le
        · exact le_rfl
    | writeNumber numMax =>
      simp only [Doorway, hpc] at hdoor
      simp only [Doorway, effect, hpc, setPc_pc_self, setPc_number, Function.update_self,
        Function.update_of_ne hij]
      omega
    | _ =>
      apply doorway_of_not_inDoorway
      rw [← (ticket_choosing_effect hinv).2]
      simp only [effect, hpc, setPc_choosing, Function.update_self]
      have hdown := (hinv.choosing j).not
      simp_all [Pc.inDoorway]
  · unfold Doorway at hdoor ⊢
    rw [effect_pc_of_ne hj, hkeep, effect_number_of_ne hj]
    cases hpc : s.pc j with
    | maxRead k =>
      rw [hpc] at hdoor
      intro hik
      by_cases hk : k = t
      · subst hk
        rw [number_effect_of_lt hinv hi (ne_of_lt hik) (hdoor hik)]
        exact hdoor hik
      · rw [effect_number_of_ne hk]
        exact hdoor hik
    | _ =>
      rw [hpc] at hdoor
      exact hdoor

/-- A thread that has just seen `choosing[j]` down was waiting for that. -/
theorem sawChosen_effect (hsaw : ((effect s i).pc i).sawChosen j) :
    (s.pc i).sawChosen j ∨ (s.pc i = .waitChoosing j ∧ s.choosing j = false) := by
  cases hpc : s.pc i with
  | clearChoosing =>
    simp only [effect, hpc, setPc_pc_self] at hsaw
    exact absurd hsaw (Nat.not_lt_zero _)
  | maxTest k numMax =>
    simp only [effect, hpc, setPc_pc_self] at hsaw
    split at hsaw
    · exact hsaw.elim
    · exact absurd hsaw not_sawChosen_afterScan
  | maxRead k =>
    simp only [effect, hpc, setPc_pc_self] at hsaw
    exact absurd hsaw not_sawChosen_afterScan
  | waitChoosing k =>
    simp only [effect, hpc, setPc_pc_self] at hsaw
    split at hsaw
    · exact .inl hsaw
    · rcases (show j ≤ k from hsaw).lt_or_eq with hlt | rfl
      · exact .inl hlt
      · exact .inr ⟨rfl, by simpa using ‹¬ s.choosing j = true›⟩
  | testZero k | testEqual k =>
    simp only [effect, hpc, setPc_pc_self] at hsaw
    split at hsaw
    · exact .inl hsaw
    · exact .inl (sawChosen_afterWait.mp hsaw)
  | testLess k =>
    simp only [effect, hpc, setPc_pc_self] at hsaw
    split at hsaw <;> exact .inl hsaw
  | _ =>
    simp only [effect, hpc, setPc_pc_self] at hsaw
    exact hsaw.elim

/-- A thread gets past `j` at the two places where the test of the second loop can fail. -/
theorem passed_effect (hpassed : ((effect s i).pc i).passed j) :
    (s.pc i).passed j ∨ (s.pc i = .testZero j ∧ s.number j = 0) ∨
      (s.pc i = .testEqual j ∧ ¬ (s.number j = s.number i ∧ j < i)) := by
  cases hpc : s.pc i with
  | clearChoosing =>
    simp only [effect, hpc, setPc_pc_self] at hpassed
    exact absurd hpassed (Nat.not_lt_zero _)
  | maxTest k numMax =>
    simp only [effect, hpc, setPc_pc_self] at hpassed
    split at hpassed
    · exact hpassed.elim
    · exact absurd hpassed not_passed_afterScan
  | maxRead k =>
    simp only [effect, hpc, setPc_pc_self] at hpassed
    exact absurd hpassed not_passed_afterScan
  | waitChoosing k | testLess k =>
    simp only [effect, hpc, setPc_pc_self] at hpassed
    split at hpassed <;> exact .inl hpassed
  | testZero k =>
    simp only [effect, hpc, setPc_pc_self] at hpassed
    split at hpassed
    · exact .inl hpassed
    · rcases (passed_afterWait.mp hpassed).lt_or_eq with hlt | rfl
      · exact .inl hlt
      · exact .inr (.inl ⟨rfl, by simpa using ‹¬ s.number j ≠ 0›⟩)
  | testEqual k =>
    simp only [effect, hpc, setPc_pc_self] at hpassed
    split at hpassed
    · exact .inl hpassed
    · rcases (passed_afterWait.mp hpassed).lt_or_eq with hlt | rfl
      · exact .inl hlt
      · exact .inr (.inr ⟨rfl, ‹_›⟩)
  | _ =>
    simp only [effect, hpc, setPc_pc_self] at hpassed
    exact hpassed.elim

/-- The last comparison is reached when the other ticket was not the smaller one. -/
theorem testEqual_effect (hpc' : (effect s i).pc i = .testEqual j) :
    s.pc i = .testLess j ∧ s.number i ≤ s.number j := by
  cases hpc : s.pc i with
  | testLess k =>
    simp only [effect, hpc, setPc_pc_self] at hpc'
    split at hpc'
    · cases hpc'
    · obtain rfl := Pc.testEqual.inj hpc'
      exact ⟨rfl, by omega⟩
  | maxTest k numMax | waitChoosing k | testZero k | testEqual k =>
    simp only [effect, hpc, setPc_pc_self] at hpc'
    split at hpc' <;> simp at hpc'
  | _ => simp [effect, hpc] at hpc'

/-- Up to the unlock, a thread behind its doorway keeps its ticket. -/
theorem number_effect_of_sawChosen (hsaw : ((effect s t).pc i).sawChosen j) :
    (effect s t).number i = s.number i := by
  by_cases hi : i = t
  · subst hi
    apply effect_number_self
    · intro numMax hpc
      simp [effect, hpc, Pc.sawChosen] at hsaw
    · intro hpc
      simp [effect, hpc, Pc.sawChosen] at hsaw
  · exact effect_number_of_ne hi

theorem doorway_effect_of_inv (hinv : Inv s) (hij : i ≠ j)
    (hsaw : ((effect s t).pc i).sawChosen j) : Doorway (effect s t) i j := by
  have hkeep := number_effect_of_sawChosen hsaw
  by_cases hi : i = t
  · subst hi
    rcases sawChosen_effect hsaw with hold | ⟨_, hdown⟩
    · exact doorway_effect hinv hij (Pc.behindDoorway_of_sawChosen hold) hkeep
        (hinv.doorway i j hij hold)
    · apply doorway_of_not_inDoorway
      rw [effect_pc_of_ne hij.symm, ← hinv.choosing, hdown]
      exact Bool.false_ne_true
  · rw [effect_pc_of_ne hi] at hsaw
    exact doorway_effect hinv hij (Pc.behindDoorway_of_sawChosen hsaw) hkeep
      (hinv.doorway i j hij hsaw)

/-- A thread that `i` has seen with `choosing` down leaves its own ticket, gives it back, or draws one
that is larger than the ticket of `i`. -/
theorem number_effect_cases (hinv : Inv s) (hij : i ≠ j) (hsaw : (s.pc i).sawChosen j) :
    (effect s t).number j = s.number j ∨ (effect s t).number j = 0 ∨
      s.number i < (effect s t).number j := by
  by_cases hj : j = t
  · subst hj
    have hdoor := hinv.doorway i j hij hsaw
    cases hpc : s.pc j with
    | writeNumber numMax =>
      simp only [Doorway, hpc] at hdoor
      simp only [effect, hpc, setPc_number, Function.update_self]
      omega
    | critical => simp [effect, hpc]
    | _ => exact .inl (effect_number_self (by simp [hpc]) (by simp [hpc]))
  · exact .inl (effect_number_of_ne hj)

theorem notLess_effect (hinv : Inv s) (hpc' : (effect s t).pc i = .testEqual j) :
    (effect s t).number j = 0 ∨ (effect s t).number i ≤ (effect s t).number j := by
  by_cases hij : i = j
  · exact .inr (by rw [hij])
  have hkeep : (effect s t).number i = s.number i :=
    number_effect_of_sawChosen (j := j) (by rw [hpc']; exact le_rfl)
  rw [hkeep]
  by_cases hi : i = t
  · subst hi
    rw [effect_number_of_ne (Ne.symm hij)]
    exact .inr (testEqual_effect hpc').2
  · rw [effect_pc_of_ne hi] at hpc'
    have hold := hinv.notLess i j hpc'
    rcases number_effect_cases (t := t) hinv hij (by rw [hpc']; exact le_rfl) with h | h | h
    · rwa [h]
    · exact .inl h
    · exact .inr h.le

theorem before_effect (hinv : Inv s) (hij : i ≠ j) (hpassed : ((effect s t).pc i).passed j)
    (hne : (effect s t).number j ≠ 0) : Before (effect s t) i j := by
  have hkeep := number_effect_of_sawChosen (Pc.sawChosen_of_passed hpassed)
  unfold Before
  rw [hkeep]
  by_cases hi : i = t
  · subst hi
    rw [effect_number_of_ne hij.symm] at hne ⊢
    rcases passed_effect hpassed with hold | ⟨_, hzero⟩ | ⟨hpc, htest⟩
    · exact hinv.passed i j hij hold hne
    · exact absurd hzero hne
    · have hle := hinv.notLess i j hpc
      omega
  · rw [effect_pc_of_ne hi] at hpassed
    rcases number_effect_cases (t := t) hinv hij (Pc.sawChosen_of_passed hpassed) with h | h | h
    · rw [h] at hne ⊢
      exact hinv.passed i j hij hpassed hne
    · exact absurd h hne
    · exact .inl h

theorem inv_effect (hinv : Inv s) : Inv (effect s t) where
  ticket _ := (ticket_choosing_effect hinv).1
  choosing _ := (ticket_choosing_effect hinv).2
  doorway _ _ hij hsaw := doorway_effect_of_inv hinv hij hsaw
  notLess _ _ hpc := notLess_effect hinv hpc
  passed _ _ hij hpassed hne := before_effect hinv hij hpassed hne

end Step

theorem inv_of_run {s : State n} {trace : List (Fin n)} (hrun : Run Step (initial n) trace s) :
    Inv s :=
  hrun.invariant (P := fun _ s => Inv s) inv_initial fun _ s t s' _ hinv hstep => by
    rw [hstep.2]
    exact inv_effect hinv

/-- In no state that any interleaving reaches are two threads between the return of `bakery_lock` and
their `bakery_unlock`. -/
theorem critical_unique {s : State n} {trace : List (Fin n)} (hrun : Run Step (initial n) trace s)
    {i j : Fin n} (hi : s.pc i = .critical) (hj : s.pc j = .critical) : i = j := by
  by_contra hij
  have hinv := inv_of_run hrun
  have hi' : s.number i ≠ 0 := (hinv.ticket i).mpr (by rw [hi]; trivial)
  have hj' : s.number j ≠ 0 := (hinv.ticket j).mpr (by rw [hj]; trivial)
  have hbefore := hinv.passed i j hij (by rw [hi]; trivial) hj'
  exact hbefore.asymm (hinv.passed j i (Ne.symm hij) (by rw [hj]; trivial) hi')

/-- Both threads draw ticket 1; the first one passes all its tests, the second one goes round its loop
for the first thread once. -/
def equalTickets : List (Fin 2) :=
  [0, 1, 0, 1, 0, 0, 1, 1, 0, 1, 0, 1, 0, 0, 0, 0, 0, 0, 0, 0, 1, 1, 1, 1]

theorem critical_unique_equalTickets : ∃ s, Run Step (initial 2) equalTickets.reverse s ∧
    s.number 0 = s.number 1 ∧ s.pc 0 = .critical ∧ s.pc 1 ≠ .critical := by
  have hrun : Run Step (initial 2) equalTickets.reverse (execute effect (initial 2) equalTickets) :=
    run_execute (by decide +kernel)
  refine ⟨_, hrun, by decide +kernel, by decide +kernel, fun h => ?_⟩
  exact absurd (critical_unique hrun (by decide +kernel) h) Fin.zero_ne_one

end Multicore.Bakery
