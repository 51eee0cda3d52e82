import Mathlib.Data.Finset.Card
import Mathlib.Data.Fintype.Basic
import Mathlib.Data.List.Nodup
import Mathlib.Data.List.Perm.Basic
import Multicore.Base.Run

/-!
# Handing out the start indices

The loop of `ThreadFunc`: a thread tests `g_cnt_global` without the mutex, takes the value and
increments it under the mutex, and calls `Search` with what it took. A thread that has passed the test
takes an index in any case, so what the test has to leave room for is every thread that is between its
test and the mutex. Where it does, the indices are handed out exactly.
-/

namespace Multicore.Houses.Handout

def numThread : UInt32 := 36

/-- The number of threads that `main` creates. -/
def threadNum (houseNum : UInt32) : UInt32 :=
  if numThread < houseNum - 1 then numThread else houseNum - 1

inductive Pc where
  | test | take | search (start : UInt32) | done
  deriving DecidableEq, Repr

structure State (threads : ℕ) where
  cntGlobal : UInt32
  pc : Fin threads → Pc
  /-- The start indices of the calls of `Search` so far, latest first. -/
  searched : List UInt32

def initial (threads : ℕ) : State threads := ⟨0, fun _ => .test, []⟩

variable {threads : ℕ}

def State.setPc (s : State threads) (i : Fin threads) (pc : Pc) : State threads :=
  { s with pc := Function.update s.pc i pc }

def Enabled (s : State threads) (i : Fin threads) : Prop := s.pc i ≠ .done

instance (s : State threads) (i : Fin threads) : Decidable (Enabled s i) :=
  inferInstanceAs (Decidable (¬ _))

/-- The next action of thread `i`. -/
def effect (houseNum : UInt32) (s : State threads) (i : Fin threads) : State threads :=
  match s.pc i with
  | .test => s.setPc i (if s.cntGlobal < houseNum - 1 then .take else .done)
  | .take => { s with cntGlobal := s.cntGlobal + 1 }.setPc i (.search s.cntGlobal)
  | .search start => { s with searched := start :: s.searched }.setPc i .test
  | .done => s

abbrev Step (houseNum : UInt32) : State threads → Fin threads → State threads → Prop :=
  Fires Enabled (effect houseNum)

/-- The threads that have passed the test and not yet taken an index. -/
def State.takers (s : State threads) : Finset (Fin threads) :=
  Finset.univ.filter fun i => s.pc i = .take

@[simp] theorem State.mem_takers {s : State threads} {i : Fin threads} :
    i ∈ s.takers ↔ s.pc i = .take := by
  simp [State.takers]

/-- A test is passed only if an index is left beyond those of the threads that passed it before. -/
def LeavesRoom (houseNum : UInt32) (s : State threads) (i : Fin threads) : Prop :=
  s.pc i = .test → s.cntGlobal < houseNum - 1 →
    s.cntGlobal.toNat + s.takers.card < (houseNum - 1).toNat

instance (houseNum : UInt32) (s : State threads) (i : Fin threads) :
    Decidable (LeavesRoom houseNum s i) :=
  inferInstanceAs (Decidable (_ → _ → _))

/-! ### The invariant -/

/-- The indices below the counter are the ones handed out: each has been searched or is held by one
thread. -/
structure Inv (houseNum : UInt32) (s : State threads) : Prop where
  room : s.cntGlobal.toNat + s.takers.card ≤ (houseNum - 1).toNat
  searched_nodup : s.searched.Nodup
  held_new : ∀ i k, s.pc i = .search k → k ∉ s.searched
  held_inj : ∀ i j k, s.pc i = .search k → s.pc j = .search k → i = j
  handed_out : ∀ k, k < s.cntGlobal ↔ k ∈ s.searched ∨ ∃ i, s.pc i = .search k
  exhausted : ∀ i, s.pc i = .done → houseNum - 1 ≤ s.cntGlobal

theorem inv_initial (houseNum : UInt32) : Inv houseNum (initial threads) where
  room := by simp [initial, State.takers]
  searched_nodup := List.nodup_nil
  held_new _ _ hpc := by cases hpc
  held_inj _ _ _ hpc := by cases hpc
  handed_out k := by simp [initial]
  exhausted _ hpc := by cases hpc

section Step

variable {houseNum : UInt32} {s : State threads} {i : Fin threads}

@[simp] theorem setPc_pc_self {pc : Pc} : (s.setPc i pc).pc i = pc := Function.update_self ..

theorem setPc_pc_of_ne {pc : Pc} {j : Fin threads} (hne : j ≠ i) : (s.setPc i pc).pc j = s.pc j :=
  Function.update_of_ne hne ..

theorem card_takers_test (hpc : s.pc i = .test) :
    (s.setPc i .take).takers.card = s.takers.card + 1 := by
  have hnot : i ∉ s.takers := by simp [hpc]
  have htakers : (s.setPc i .take).takers = insert i s.takers := by
    ext j
    by_cases hj : j = i
    · simp [hj]
    · simp [hj, setPc_pc_of_ne hj]
  rw [htakers, Finset.card_insert_of_notMem hnot]

theorem card_takers_take {pc : Pc} (hpc : s.pc i = .take) (hnew : pc ≠ .take) :
    (s.setPc i pc).takers.card + 1 = s.takers.card := by
  have htakers : (s.setPc i pc).takers = s.takers.erase i := by
    ext j
    by_cases hj : j = i
    · simp [hj, hnew]
    · simp [hj, setPc_pc_of_ne hj]
  rw [htakers, Finset.card_erase_add_one (State.mem_takers.mpr hpc)]

theorem takers_setPc_of_ne {pc : Pc} (hold : s.pc i ≠ .take) (hnew : pc ≠ .take) :
    (s.setPc i pc).takers = s.takers := by
  ext j
  by_cases hj : j = i
  · simp [hj, hold, hnew]
  · simp [setPc_pc_of_ne hj]

/-- A step between program points at which no index is held leaves what is handed out. -/
theorem inv_setPc {pc : Pc} (hinv : Inv houseNum s) (hold : ∀ k, s.pc i ≠ .search k)
    (hnew : ∀ k, pc ≠ .search k)
    (hroom : s.cntGlobal.toNat + (s.setPc i pc).takers.card ≤ (houseNum - 1).toNat)
    (hdone : pc = .done → houseNum - 1 ≤ s.cntGlobal) : Inv houseNum (s.setPc i pc) := by
  have hsearch : ∀ j k, (s.setPc i pc).pc j = .search k ↔ s.pc j = .search k := by
    intro j k
    by_cases hj : j = i
    · simp [hj, hold, hnew]
    · rw [setPc_pc_of_ne hj]
  constructor
  case room => exact hroom
  case searched_nodup => exact hinv.searched_nodup
  case held_new => exact fun j k hpc => hinv.held_new j k ((hsearch j k).mp hpc)
  case held_inj =>
    exact fun j j' k hpc hpc' => hinv.held_inj j j' k ((hsearch j k).mp hpc) ((hsearch j' k).mp hpc')
  case handed_out =>
    intro k
    simp only [hsearch]
    exact hinv.handed_out k
  case exhausted =>
    intro j hpc
    by_cases hj : j = i
    · rw [hj, setPc_pc_self] at hpc
      exact hdone hpc
    · rw [setPc_pc_of_ne hj] at hpc
      exact hinv.exhausted j hpc

/-- The thread takes the index the counter shows, which nobody has had before. -/
theorem inv_take (hinv : Inv houseNum s) (hpc : s.pc i = .take) :
    Inv houseNum ({ s with cntGlobal := s.cntGlobal + 1 }.setPc i (.search s.cntGlobal)) := by
  have hcard : (s.setPc i (.search s.cntGlobal)).takers.card + 1 = s.takers.card :=
    card_takers_take hpc (by simp)
  have hroom := hinv.room
  have hlt := (houseNum - 1).toNat_lt
  have hsucc : (s.cntGlobal + 1).toNat = s.cntGlobal.toNat + 1 := by
    rw [UInt32.toNat_add]
    exact Nat.mod_eq_of_lt (by simp; omega)
  have hfresh : ∀ k, k = s.cntGlobal → ¬ (k ∈ s.searched ∨ ∃ j, s.pc j = .search k) := by
    intro k hk hhad
    exact absurd ((hinv.handed_out k).mpr hhad) (by rw [hk]; exact UInt32.lt_irrefl _)
  have hsearch : ∀ j k, ({ s with cntGlobal := s.cntGlobal + 1 }.setPc i
      (.search s.cntGlobal)).pc j = .search k ↔
        (j = i ∧ k = s.cntGlobal) ∨ s.pc j = .search k := by
    intro j k
    by_cases hj : j = i
    · simp [hj, hpc, eq_comm]
    · simp [hj, setPc_pc_of_ne hj]
  constructor
  case room =>
    change (s.cntGlobal + 1).toNat + (s.setPc i (.search s.cntGlobal)).takers.card ≤ _
    omega
  case searched_nodup => exact hinv.searched_nodup
  case held_new =>
    intro j k hj
    rcases (hsearch j k).mp hj with ⟨-, hk⟩ | hj
    · exact fun hmem => hfresh k hk (.inl hmem)
    · exact hinv.held_new j k hj
  case held_inj =>
    intro j j' k hj hj'
    rcases (hsearch j k).mp hj with ⟨hji, hk⟩ | hj <;>
      rcases (hsearch j' k).mp hj' with ⟨hji', hk'⟩ | hj'
    · rw [hji, hji']
    · exact absurd (.inr ⟨j', hj'⟩) (hfresh k hk)
    · exact absurd (.inr ⟨j, hj⟩) (hfresh k hk')
    · exact hinv.held_inj j j' k hj hj'
  case handed_out =>
    intro k
    have hk : k < s.cntGlobal + 1 ↔ k < s.cntGlobal ∨ k = s.cntGlobal := by
      rw [UInt32.lt_iff_toNat_lt, UInt32.lt_iff_toNat_lt, ← UInt32.toNat_inj, hsucc]
      omega
    change k < s.cntGlobal + 1 ↔ _
    simp only [hk, hsearch, hinv.handed_out k, exists_or, exists_and_right, exists_eq, true_and,
      or_assoc]
    exact or_congr_right or_comm
  case exhausted =>
    intro j hj
    by_cases hji : j = i
    · simp [hji] at hj
    · rw [setPc_pc_of_ne hji] at hj
      have hle := hinv.exhausted j hj
      change _ ≤ s.cntGlobal + 1
      rw [UInt32.le_iff_toNat_le] at hle ⊢
      omega

/-- The index passes from its thread to the calls made. -/
theorem inv_search (hinv : Inv houseNum s) {start : UInt32} (hpc : s.pc i = .search start) :
    Inv houseNum ({ s with searched := start :: s.searched }.setPc i .test) := by
  have htakers : (s.setPc i .test).takers = s.takers := takers_setPc_of_ne (by simp [hpc]) (by simp)
  have hsearch : ∀ j k, ({ s with searched := start :: s.searched }.setPc i .test).pc j = .search k ↔
      j ≠ i ∧ s.pc j = .search k := by
    intro j k
    by_cases hj : j = i
    · simp [hj]
    · simp [hj, setPc_pc_of_ne hj]
  constructor
  case room =>
    change s.cntGlobal.toNat + (s.setPc i .test).takers.card ≤ _
    rw [htakers]
    exact hinv.room
  case searched_nodup => exact hinv.searched_nodup.cons (hinv.held_new i start hpc)
  case held_new =>
    intro j k hj
    obtain ⟨hne, hj'⟩ := (hsearch j k).mp hj
    apply List.not_mem_cons_of_ne_of_not_mem _ (hinv.held_new j k hj')
    intro hk
    exact hne (hinv.held_inj j i k hj' (by rw [hk, hpc]))
  case held_inj =>
    intro j j' k hj hj'
    exact hinv.held_inj j j' k ((hsearch j k).mp hj).2 ((hsearch j' k).mp hj').2
  case handed_out =>
    intro k
    change k < s.cntGlobal ↔ k ∈ start :: s.searched ∨ _
    simp only [hsearch, hinv.handed_out k, List.mem_cons]
    constructor
    · rintro (hmem | ⟨j, hj⟩)
      · exact .inl (.inr hmem)
      · by_cases hji : j = i
        · rw [hji, hpc] at hj
          exact .inl (.inl (Pc.search.inj hj).symm)
        · exact .inr ⟨j, hji, hj⟩
    · rintro ((rfl | hmem) | ⟨j, -, hj⟩)
      · exact .inr ⟨i, hpc⟩
      · exact .inl hmem
      · exact .inr ⟨j, hj⟩
  case exhausted =>
    intro j hj
    by_cases hji : j = i
    · simp [hji] at hj
    · rw [setPc_pc_of_ne hji] at hj
      exact hinv.exhausted j hj

theorem inv_effect (hinv : Inv houseNum s) (hleaves : LeavesRoom houseNum s i) :
    Inv houseNum (effect houseNum s i) := by
  unfold effect
  cases hpc : s.pc i with
  | test =>
    by_cases hlt : s.cntGlobal < houseNum - 1
    · rw [if_pos hlt]
      refine inv_setPc hinv (by simp [hpc]) (by simp) ?_ fun h => by cases h
      rw [card_takers_test hpc]
      exact hleaves hpc hlt
    · rw [if_neg hlt]
      have htakers : (s.setPc i .done).takers = s.takers :=
        takers_setPc_of_ne (by simp [hpc]) (by simp)
      refine inv_setPc hinv (by simp [hpc]) (by simp) ?_ fun _ => UInt32.not_lt.mp hlt
      rw [htakers]
      exact hinv.room
  | take => exact inv_take hinv hpc
  | search start => exact inv_search hinv hpc
  | done => exact hinv

theorem inv_of_run {trace : List (Fin threads)}
    (hrun : Run (Restrict (Step houseNum) (LeavesRoom houseNum)) (initial threads) trace s) :
    Inv houseNum s :=
  hrun.invariant (P := fun _ s => Inv houseNum s) (inv_initial houseNum)
    fun _ s i s' _ hinv hstep => by
      rw [hstep.1.2]
      exact inv_effect hinv hstep.2

end Step

theorem toNat_pred {houseNum : UInt32} (htwo : 2 ≤ houseNum) :
    (houseNum - 1).toNat = houseNum.toNat - 1 :=
  UInt32.toNat_sub_of_le _ _ (UInt32.le_trans (by decide) htwo)

theorem threadNum_pos {houseNum : UInt32} (htwo : 2 ≤ houseNum) : 0 < (threadNum houseNum).toNat := by
  unfold threadNum
  split
  · decide
  · have hle : (2 : UInt32).toNat ≤ houseNum.toNat := UInt32.le_iff_toNat_le.mp htwo
    have htwo' : (2 : UInt32).toNat = 2 := rfl
    rw [toNat_pred htwo]
    omega

/-- Where every test that is passed leaves room, no call of `Search` gets an index from `house_num - 1`
on and none gets an index twice; when all threads have left the loop, the calls are those for
`0, …, house_num - 2`, each once. -/
theorem indices_handed_out_once (houseNum : UInt32) (htwo : 2 ≤ houseNum)
    {trace : List (Fin (threadNum houseNum).toNat)} {s : State (threadNum houseNum).toNat}
    (hrun : Run (Restrict (Step houseNum) (LeavesRoom houseNum)) (initial _) trace s) :
    (∀ k ∈ s.searched, k < houseNum - 1) ∧ s.searched.Nodup ∧
      ((∀ i, s.pc i = .done) →
        (s.searched.map UInt32.toNat).Perm (List.range (houseNum.toNat - 1))) := by
  have hinv := inv_of_run hrun
  have hcnt : s.cntGlobal ≤ houseNum - 1 := by
    rw [UInt32.le_iff_toNat_le]
    have hroom := hinv.room
    omega
  refine ⟨fun k hk => ?_, hinv.searched_nodup, fun hdone => ?_⟩
  · exact UInt32.lt_of_lt_of_le ((hinv.handed_out k).mpr (.inl hk)) hcnt
  · have hall : s.cntGlobal = houseNum - 1 :=
      UInt32.le_antisymm hcnt (hinv.exhausted ⟨0, threadNum_pos htwo⟩ (hdone _))
    have hmem : ∀ k, k ∈ s.searched ↔ k < houseNum - 1 := by
      intro k
      rw [← hall, hinv.handed_out k]
      simp [hdone]
    have hnodup : (s.searched.map UInt32.toNat).Nodup :=
      hinv.searched_nodup.map fun _ _ h => UInt32.toNat_inj.mp h
    rw [List.perm_ext_iff_of_nodup hnodup List.nodup_range]
    intro k
    simp only [List.mem_map, List.mem_range, hmem, UInt32.lt_iff_toNat_lt, toNat_pred htwo]
    constructor
    · rintro ⟨index, hlt, rfl⟩
      exact hlt
    · intro hlt
      have hbound : k < UInt32.size := by
        have hsize := houseNum.toNat_lt_size
        omega
      have hindex : (UInt32.ofNat k).toNat = k := UInt32.toNat_ofNat_of_lt hbound
      exact ⟨UInt32.ofNat k, by rwa [hindex], hindex⟩

/-- Three houses and two threads. Both threads pass the test while the counter is 1. -/
def overshoot : List (Fin (threadNum 3).toNat) := ([0, 0, 0, 0, 1, 0, 1, 0, 1, 0, 1] : List (Fin 2))

theorem overshoot_searches_last_house :
    ∃ s : State (threadNum 3).toNat, Run (Step 3) (initial _) overshoot.reverse s ∧
      (∀ i, s.pc i = .done) ∧ s.searched = [2, 1, 0] :=
  ⟨_, run_execute (by decide +kernel), by decide +kernel, by decide +kernel⟩

/-- The first thread does all the work; the second one finds nothing left. -/
def oneWorker : List (Fin (threadNum 3).toNat) := ([0, 0, 0, 0, 0, 0, 0, 1] : List (Fin 2))

theorem indices_handed_out_once_oneWorker :
    ∃ s : State (threadNum 3).toNat, (∀ i, s.pc i = .done) ∧
      (s.searched.map UInt32.toNat).Perm (List.range 2) := by
  have hrun : Run (Restrict (Step 3) (LeavesRoom 3)) (initial _) oneWorker.reverse
      (execute (effect 3) (initial _) oneWorker) := run_execute_restrict (by decide +kernel)
  have hdone : ∀ i, (execute (effect 3) (initial _) oneWorker).pc i = .done := by decide +kernel
  exact ⟨_, hdone, (indices_handed_out_once 3 (by decide) hrun).2.2 hdone⟩

end Multicore.Houses.Handout
