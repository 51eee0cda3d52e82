import Mathlib.Data.Fin.VecNotation
import Multicore.Mvcc.Conservation
import Multicore.Mvcc.Owned
import Multicore.Mvcc.Unregistered

/-!
# The range of the values

An update adds the remainder of another thread's `A` to its own and takes it from its `B`. The sign of
a remainder is that of the value, so `A` only grows and `B` only falls as long as every `A` that is read
is not negative, which is then true of all lists together. The values are followed in exact arithmetic,
beside the run; while no thread has made too many updates the machine computes the same numbers.

The one thing that can break this is a read from a node that has been freed.
-/

namespace Multicore.Mvcc

/-! ### Exact arithmetic -/

/-- The values of the nodes and of the updates under way, as numbers. -/
@[ext] structure Exact (n : ℕ) where
  nodeA : Addr → ℤ
  nodeB : Addr → ℤ
  myA : Fin n → ℤ
  myB : Fin n → ℤ

variable {n : ℕ} {hist : Fin n → List Addr} {s s' : State n} {e : Event n} {x : Exact n} {i : Fin n}
  {y : Addr} {k : ℕ}

/-- The values the machine holds. -/
def exactOf (s : State n) : Exact n where
  nodeA y := (s.heap y).A.toInt
  nodeB y := (s.heap y).B.toInt
  myA i := (s.updater i).myA.toInt
  myB i := (s.updater i).myB.toInt

namespace Exact

/-- What a read of `A` through the cursor returns: the value of the node, or the word found in its
place once the node has been freed. -/
def read (x : Exact n) (s : State n) (i : Fin n) (word : BitVec 32) : ℤ :=
  match (s.updater i).cursorSinglyNode with
  | none => word.toInt
  | some y => if s.freed y then word.toInt else x.nodeA y

/-- The locals of thread `i` get new values. -/
def setMine (x : Exact n) (i : Fin n) (A B : ℤ) : Exact n :=
  { x with myA := Function.update x.myA i A, myB := Function.update x.myB i B }

/-- What `ThreadFunc` assigns, without overflow. -/
def next (x : Exact n) (s : State n) : Event n → Exact n
  | .readOwn i => x.setMine i (x.nodeA (s.singlyList i)) (x.nodeB (s.singlyList i))
  | .readA i word => x.setMine i (x.myA i + (x.read s i word).tmod 100) (x.myB i)
  | .readAAgain i word => x.setMine i (x.myA i) (x.myB i - (x.read s i word).tmod 100)
  | .insert i =>
    { x with
      nodeA := Function.update x.nodeA s.nextAddr (x.myA i)
      nodeB := Function.update x.nodeB s.nextAddr (x.myB i) }
  | _ => x

theorem setMine_self (x : Exact n) (i : Fin n) : x.setMine i (x.myA i) (x.myB i) = x := by
  rw [setMine, Function.update_eq_self, Function.update_eq_self]

theorem next_node (hy : y < s.nextAddr) :
    (x.next s e).nodeA y = x.nodeA y ∧ (x.next s e).nodeB y = x.nodeB y := by
  cases e with
  | insert i => exact ⟨Function.update_of_ne hy.ne _ _, Function.update_of_ne hy.ne _ _⟩
  | _ => exact ⟨rfl, rfl⟩

theorem next_of_ne (hne : e.thread ≠ some i) :
    (x.next s e).myA i = x.myA i ∧ (x.next s e).myB i = x.myB i := by
  have hset : ∀ j A B, some j ≠ some i →
      (x.setMine j A B).myA i = x.myA i ∧ (x.setMine j A B).myB i = x.myB i := by
    intro j A B hj
    have hij : i ≠ j := fun heq => hj (congrArg some heq.symm)
    exact ⟨Function.update_of_ne hij _ _, Function.update_of_ne hij _ _⟩
  cases e with
  | readOwn j => exact hset j _ _ hne
  | readA j word => exact hset j _ _ hne
  | readAAgain j word => exact hset j _ _ hne
  | _ => exact ⟨rfl, rfl⟩

end Exact

/-- The values after a run, in exact arithmetic. -/
def exactValues (start : State n) : List (Event n) → Exact n
  | [] => exactOf start
  | e :: trace => (exactValues start trace).next (replay effect start trace) e

/-- No freed node is searched, and where `A` is read from one the word found there has a remainder
that is not negative. -/
def SafeRead (s : State n) : Event n → Prop
  | .search i => (s.updater i).cursorSinglyNode.any s.freed = false
  | .readA i word | .readAAgain i word =>
    (s.updater i).cursorSinglyNode.any s.freed = true → 0 ≤ word.toInt.tmod 100
  | _ => True

instance (s : State n) : ∀ e : Event n, Decidable (SafeRead s e)
  | .search _ => inferInstanceAs (Decidable (_ = false))
  | .readA _ _ | .readAAgain _ _ => inferInstanceAs (Decidable (_ = true → _ ≤ _))
  | .testRun _ | .pick _ _ | .enter _ | .readHead _ | .readOwn _ | .insert _ | .leave _ | .countUp _
  | .collect | .setVerbosing _ | .stopRun => inferInstanceAs (Decidable True)

/-! ### The joint invariant -/

theorem record_of_ne_insert (hne : e ≠ .insert i) : record hist s e i = hist i := by
  cases e with
  | insert j => exact extend_of_ne fun hij => hne (congrArg _ hij.symm)
  | _ => rfl

/-- The range of `A` after `k` updates. -/
def RangeA (k : ℕ) (A : ℤ) : Prop := 0 ≤ A ∧ A ≤ 999 + 99 * k

/-- The range of `B` after `k` updates. -/
def RangeB (k : ℕ) (B : ℤ) : Prop := -(99 * k) ≤ B ∧ B ≤ 999

/-- The range of the locals during the update that follows `k` nodes. -/
def UpdaterRange (k : ℕ) (A B : ℤ) : UpdaterPc → Prop
  | .search | .readA => RangeA (k - 1) A ∧ RangeB (k - 1) B
  | .readAAgain => RangeA k A ∧ RangeB (k - 1) B
  | .insert => RangeA k A ∧ RangeB k B
  | _ => True

/-- Every node is in the range for the number of nodes its thread linked in before. -/
structure Ranged (hist : Fin n → List Addr) (s : State n) (x : Exact n) : Prop where
  nodes : ∀ i newer y older, hist i = newer ++ y :: older →
    RangeA older.length (x.nodeA y) ∧ RangeB older.length (x.nodeB y)
  updater : ∀ i, UpdaterRange (hist i).length (x.myA i) (x.myB i) (s.updater i).pc

theorem Ranged.nonneg (h : Ranged hist s x) (hy : y ∈ hist i) : 0 ≤ x.nodeA y := by
  obtain ⟨newer, older, heq⟩ := List.append_of_mem hy
  exact (h.nodes i newer y older heq).1.1

theorem Ranged.head (h : Ranged hist s x) (howned : Owned hist s) (i : Fin n) :
    0 < (hist i).length ∧ RangeA ((hist i).length - 1) (x.nodeA (s.singlyList i)) ∧
      RangeB ((hist i).length - 1) (x.nodeB (s.singlyList i)) := by
  obtain ⟨older, heq⟩ := List.head?_eq_some_iff.mp (howned.head i)
  rw [heq]
  exact ⟨Nat.succ_pos _, h.nodes i [] _ older heq⟩

/-- The remainder of what an update reads. -/
theorem Ranged.read (h : Ranged hist s x) (howned : Owned hist s)
    (hholds : (s.updater i).pc.holdsCursor = true) {word : BitVec 32} (hread : MayRead s i word)
    (hsafe : (s.updater i).cursorSinglyNode.any s.freed = true → 0 ≤ word.toInt.tmod 100) :
    0 ≤ (x.read s i word).tmod 100 ∧ (x.read s i word).tmod 100 < 100 := by
  refine ⟨?_, Int.tmod_lt_of_pos _ (by decide)⟩
  have hcursor := howned.cursor i hholds
  rw [MayRead] at hread
  rw [Exact.read]
  cases hat : (s.updater i).cursorSinglyNode with
  | none =>
    rw [hat] at hread
    exact hread.elim
  | some y =>
    rw [hat, Option.any_some] at hsafe
    dsimp only
    split
    · rename_i hfreed
      exact hsafe hfreed
    · exact Int.tmod_nonneg _ (h.nonneg (hcursor y hat))

theorem Ranged.nodes_step (h : Ranged hist s x) (howned : Owned hist s) (henabled : Enabled s e)
    (i : Fin n) (newer : List Addr) (y : Addr) (older : List Addr)
    (heq : record hist s e i = newer ++ y :: older) :
    RangeA older.length ((x.next s e).nodeA y) ∧ RangeB older.length ((x.next s e).nodeB y) := by
  have hold : ∀ newer, hist i = newer ++ y :: older →
      RangeA older.length ((x.next s e).nodeA y) ∧ RangeB older.length ((x.next s e).nodeB y) := by
    intro newer heq
    have hy : y ∈ hist i := heq ▸ List.mem_append_right newer List.mem_cons_self
    obtain ⟨hA, hB⟩ := Exact.next_node (x := x) (e := e) (howned.fresh i y hy)
    rw [hA, hB]
    exact h.nodes i newer y older heq
  by_cases hinsert : e = .insert i
  · subst hinsert
    rw [show record hist s (.insert i) = extend hist i s.nextAddr from rfl, extend_self] at heq
    cases newer with
    | nil =>
      -- the new node has the values of the update, and all nodes so far behind it
      obtain ⟨rfl, rfl⟩ := List.cons.inj heq
      have hupdater := h.updater i
      rw [show (s.updater i).pc = _ from henabled] at hupdater
      simp only [Exact.next, Function.update_self]
      exact hupdater
    | cons z newer => exact hold newer (List.cons.inj heq).2
  · rw [record_of_ne_insert hinsert] at heq
    exact hold newer heq

theorem Ranged.search (h : Ranged hist s x) {i : Fin n} (hpc : (s.updater i).pc = .search) :
    UpdaterRange (hist i).length (x.myA i) (x.myB i) ((searchStep s i).updater i).pc := by
  have hold := h.updater i
  cases hcursor : (s.updater i).cursorSinglyNode with
  | none =>
    rw [searchStep_none hcursor]
    exact hold
  | some y =>
    rw [hpc] at hold
    by_cases hlt : (s.heap y).version < (s.updater i).activeThreadVersion
    · rw [searchStep_stop hcursor hlt, setUpdater_updater_self]
      exact hold
    · rw [searchStep_follow hcursor hlt, setUpdater_updater_self]
      dsimp only
      rw [hpc]
      exact hold

theorem Ranged.readOwn (h : Ranged hist s x) (howned : Owned hist s) (i : Fin n) :
    UpdaterRange (hist i).length ((x.next s (.readOwn i)).myA i) ((x.next s (.readOwn i)).myB i)
      ((effect s (.readOwn i)).updater i).pc := by
  obtain ⟨-, hA, hB⟩ := h.head howned i
  rw [effect, setUpdater_updater_self]
  simp only [Exact.next, Exact.setMine, Function.update_self]
  split
  · exact ⟨hA, hB⟩
  · exact ⟨hA, hB⟩

theorem Ranged.readA (h : Ranged hist s x) (howned : Owned hist s) {i : Fin n} {word : BitVec 32}
    (henabled : Enabled s (.readA i word)) (hsafe : SafeRead s (.readA i word)) :
    UpdaterRange (hist i).length ((x.next s (.readA i word)).myA i) ((x.next s (.readA i word)).myB i)
      ((effect s (.readA i word)).updater i).pc := by
  obtain ⟨hpc, hread⟩ := henabled
  have hpos := (h.head howned i).1
  have hrem := h.read howned (by rw [hpc]; rfl) hread hsafe
  have hold := h.updater i
  rw [hpc] at hold
  rw [effect, setUpdater_updater_self]
  simp only [Exact.next, Exact.setMine, Function.update_self]
  simp only [UpdaterRange, RangeA] at hold ⊢
  obtain ⟨hA, hB⟩ := hold
  exact ⟨by omega, hB⟩

theorem Ranged.readAAgain (h : Ranged hist s x) (howned : Owned hist s) {i : Fin n}
    {word : BitVec 32} (henabled : Enabled s (.readAAgain i word))
    (hsafe : SafeRead s (.readAAgain i word)) :
    UpdaterRange (hist i).length ((x.next s (.readAAgain i word)).myA i)
      ((x.next s (.readAAgain i word)).myB i) ((effect s (.readAAgain i word)).updater i).pc := by
  obtain ⟨hpc, hread⟩ := henabled
  have hpos := (h.head howned i).1
  have hrem := h.read howned (by rw [hpc]; rfl) hread hsafe
  have hold := h.updater i
  rw [hpc] at hold
  rw [effect, setUpdater_updater_self]
  simp only [Exact.next, Exact.setMine, Function.update_self]
  simp only [UpdaterRange, RangeB] at hold ⊢
  obtain ⟨hA, hB⟩ := hold
  exact ⟨hA, by omega⟩

theorem updaterRange_of_not {A B : ℤ} {pc : UpdaterPc} (hpc : ¬ pc.beforeInsert = true) :
    UpdaterRange k A B pc := by
  cases pc <;> trivial

theorem Ranged.updater_step (h : Ranged hist s x) (howned : Owned hist s) (hstep : Step s e s')
    (hsafe : SafeRead s e) (i : Fin n) :
    UpdaterRange (record hist s e i).length ((x.next s e).myA i) ((x.next s e).myB i)
      (s'.updater i).pc := by
  by_cases hself : e.thread = some i
  · by_cases hbefore : s'.BeforeInsert i
    · rcases beforeInsert_step hstep hself hbefore with rfl | rfl | rfl | rfl | ⟨word, rfl⟩ | ⟨word, rfl⟩ <;>
        obtain ⟨henabled, rfl⟩ := hstep
      · rw [show (effect s (.enter i)).updater i = _ from Function.update_self _ _ _]
        trivial
      · rw [effect, setUpdater_updater_self]
        trivial
      · exact h.readOwn howned i
      · exact h.search henabled.1
      · exact h.readA howned henabled hsafe
      · exact h.readAAgain howned henabled hsafe
    · exact updaterRange_of_not hbefore
  · obtain ⟨hA, hB⟩ := Exact.next_of_ne (x := x) (s := s) hself
    have hsame : record hist s e i = hist i := record_of_ne_insert (by rintro rfl; exact hself rfl)
    rw [hstep.2, updater_effect_of_ne hself, hA, hB, hsame]
    exact h.updater i

theorem Ranged.step (h : Ranged hist s x) (howned : Owned hist s) (hstep : Step s e s')
    (hsafe : SafeRead s e) : Ranged (record hist s e) s' (x.next s e) :=
  ⟨h.nodes_step howned hstep.1, h.updater_step howned hstep hsafe⟩

/-! ### The machine's values -/

/-- The additions and subtractions of an event stay within the range of an `int`. -/
def NoOverflow (s : State n) : Event n → Prop
  | .readA i word => (s.updater i).myA.saddOverflow (word.srem 100) = false
  | .readAAgain i word => (s.updater i).myB.ssubOverflow (word.srem 100) = false
  | _ => True

theorem toInt_srem_hundred (word : BitVec 32) :
    (word.srem 100).toInt = word.toInt.tmod 100 := by
  rw [BitVec.toInt_srem]
  rfl

theorem exactOf_setUpdater (s : State n) (i : Fin n) (u : Updater n) :
    exactOf (s.setUpdater i u) = (exactOf s).setMine i u.myA.toInt u.myB.toInt := by
  ext j
  · rfl
  · rfl
  · exact congrFun (Function.comp_update (fun u : Updater n => u.myA.toInt) s.updater i u) j
  · exact congrFun (Function.comp_update (fun u : Updater n => u.myB.toInt) s.updater i u) j

theorem exactOf_setUpdater_of_eq {u : Updater n} (hA : u.myA = (s.updater i).myA)
    (hB : u.myB = (s.updater i).myB) : exactOf (s.setUpdater i u) = exactOf s := by
  rw [exactOf_setUpdater, hA, hB]
  exact (exactOf s).setMine_self i

theorem exactOf_insertSinglyList (s : State n) (i : Fin n) (A B : BitVec 32) (version : ℕ) :
    exactOf (insertSinglyList s i A B version) =
      { exactOf s with
        nodeA := Function.update (exactOf s).nodeA s.nextAddr A.toInt
        nodeB := Function.update (exactOf s).nodeB s.nextAddr B.toInt } := by
  ext y
  · exact congrFun (Function.comp_update (fun node : SinglyNode => node.A.toInt) s.heap _ _) y
  · exact congrFun (Function.comp_update (fun node : SinglyNode => node.B.toInt) s.heap _ _) y
  · rfl
  · rfl

/-- The machine reads the exact value, if it holds the exact values so far. -/
theorem read_exactOf {word : BitVec 32} (hread : MayRead s i word) :
    (exactOf s).read s i word = word.toInt := by
  rw [MayRead] at hread
  rw [Exact.read]
  cases hat : (s.updater i).cursorSinglyNode with
  | none => rfl
  | some y =>
    rw [hat] at hread
    dsimp only at hread ⊢
    split
    · rfl
    · rename_i hfreed
      rw [hread (Bool.eq_false_iff.mpr hfreed)]
      rfl

/-- An event that does not overflow does to the machine's values what it does to the exact ones. -/
theorem exactOf_effect (henabled : Enabled s e) (hfits : NoOverflow s e) :
    exactOf (effect s e) = (exactOf s).next s e := by
  cases e with
  | testRun i => exact exactOf_setUpdater_of_eq rfl rfl
  | pick i p =>
    rw [effect]
    split
    · exact exactOf_setUpdater_of_eq rfl rfl
    · exact exactOf_setUpdater_of_eq rfl rfl
  | enter i => exact exactOf_setUpdater_of_eq (s := s) rfl rfl
  | readHead i => exact exactOf_setUpdater_of_eq rfl rfl
  | readOwn i => exact exactOf_setUpdater s i _
  | search i =>
    rw [effect, searchStep]
    split
    · rfl
    · split
      · exact exactOf_setUpdater_of_eq rfl rfl
      · exact exactOf_setUpdater_of_eq rfl rfl
  | readA i word =>
    have hsum : ((s.updater i).myA + word.srem 100).toInt =
        (exactOf s).myA i + ((exactOf s).read s i word).tmod 100 := by
      rw [BitVec.toInt_add_of_not_saddOverflow (Bool.eq_false_iff.mp hfits), toInt_srem_hundred,
        read_exactOf henabled.2]
      rfl
    rw [effect, exactOf_setUpdater, Exact.next, hsum]
    rfl
  | readAAgain i word =>
    have hdifference : ((s.updater i).myB - word.srem 100).toInt =
        (exactOf s).myB i - ((exactOf s).read s i word).tmod 100 := by
      rw [BitVec.toInt_sub_of_not_ssubOverflow (Bool.eq_false_iff.mp hfits), toInt_srem_hundred,
        read_exactOf henabled.2]
      rfl
    rw [effect, exactOf_setUpdater, Exact.next, hdifference]
    rfl
  | insert i =>
    have hlinked := exactOf_insertSinglyList s i (s.updater i).myA (s.updater i).myB
      (s.updater i).currentVersion
    refine (exactOf_setUpdater_of_eq ?_ ?_).trans hlinked
    · rfl
    · rfl
  | leave i => exact exactOf_setUpdater_of_eq (s := s) rfl rfl
  | countUp i => exact exactOf_setUpdater_of_eq (s := s) rfl rfl
  | collect =>
    obtain ⟨link, freed, c, heq⟩ := collectStep_frame s
    rw [effect, heq]
    rfl
  | setVerbosing value => rfl
  | stopRun => rfl

/-- A remainder by `100` does not carry an `int` that is `99` away from its limits over them. -/
theorem fits_of_remainder {v word : BitVec 32} (hge : -(2 ^ 31) + 99 ≤ v.toInt)
    (hle : v.toInt + 99 ≤ 2 ^ 31 - 1) :
    v.saddOverflow (word.srem 100) = false ∧ v.ssubOverflow (word.srem 100) = false := by
  have hlt := Int.tmod_lt_of_pos word.toInt (show (0 : ℤ) < 100 by decide)
  have hgt := Int.lt_tmod_of_pos word.toInt (show (0 : ℤ) < 100 by decide)
  rw [BitVec.saddOverflow, BitVec.ssubOverflow, toInt_srem_hundred, Bool.or_eq_false_iff,
    Bool.or_eq_false_iff, decide_eq_false_iff_not, decide_eq_false_iff_not, decide_eq_false_iff_not,
    decide_eq_false_iff_not]
  omega

/-- While an update is one of the first `21691743` of its thread, its sums are `int`s. -/
theorem Ranged.noOverflow (h : Ranged hist s (exactOf s)) (howned : Owned hist s)
    (hfew : ∀ i, s.BeforeInsert i → (hist i).length ≤ (2 ^ 31 - 1 - 999) / 99)
    (henabled : Enabled s e) : NoOverflow s e := by
  cases e with
  | readA i word =>
    have hpos := (h.head howned i).1
    have hlength := hfew i (by rw [State.BeforeInsert, henabled.1]; rfl)
    have hold := h.updater i
    rw [henabled.1] at hold
    obtain ⟨⟨hA, hA'⟩, -⟩ := hold
    change 0 ≤ (s.updater i).myA.toInt at hA
    change (s.updater i).myA.toInt ≤ _ at hA'
    exact (fits_of_remainder (by omega) (by omega)).1
  | readAAgain i word =>
    have hpos := (h.head howned i).1
    have hlength := hfew i (by rw [State.BeforeInsert, henabled.1]; rfl)
    have hold := h.updater i
    rw [henabled.1] at hold
    obtain ⟨-, hB, hB'⟩ := hold
    change -(99 * _) ≤ (s.updater i).myB.toInt at hB
    change (s.updater i).myB.toInt ≤ 999 at hB'
    exact (fits_of_remainder (by omega) (by omega)).2
  | _ => trivial

/-! ### Runs -/

/-- A thread has linked in the updates it has begun, but for the one under way. -/
theorem length_history_le {minimum deleteFront : Fin n → ℤ} {a b : Fin n → BitVec 32}
    {trace : List (Event n)} (hrun : Run Step (initialWith minimum deleteFront a b) trace s)
    (i : Fin n) :
    (history trace i).length ≤
      trace.count (.enter i) + if (s.updater i).pc.beforeInsert then 0 else 1 := by
  induction hrun with
  | nil => exact le_rfl
  | @cons trace s s' e hrun hstep ih =>
    rw [history_of_run e hrun]
    obtain ⟨henabled, rfl⟩ := hstep
    have hcount : trace.count (.enter i) ≤ (e :: trace).count (.enter i) := List.count_le_count_cons
    cases hquiet : e.isQuiet with
    | true =>
      have hsame : record (history trace) s e = history trace := record_of_ne (by rintro j rfl; cases hquiet)
      rw [hsame, (quiet_of_enabled hquiet henabled).beforeInsert i]
      omega
    | false =>
      by_cases hself : e.thread = some i
      · cases e with
        | enter j =>
          obtain rfl := Option.some.inj hself
          rw [List.count_cons_self]
          have hone : (if (s.updater j).pc.beforeInsert then 0 else 1) ≤ 1 := by split <;> decide
          change (history trace j).length ≤ _
          omega
        | insert j =>
          obtain rfl := Option.some.inj hself
          rw [show (s.updater j).pc = _ from henabled] at ih
          rw [effect, setUpdater_updater_self,
            show record (history trace) s (.insert j) = extend (history trace) j s.nextAddr from rfl,
            extend_self]
          exact Nat.succ_le_succ (ih.trans hcount)
        | leave j =>
          obtain rfl := Option.some.inj hself
          rw [show (s.updater j).pc = _ from henabled] at ih
          rw [effect, secondSection_updater_self]
          exact ih.trans (Nat.add_le_add_right hcount 1)
        | _ => cases hquiet
      · rw [updater_effect_of_ne hself, record_of_ne_insert (by rintro rfl; exact hself rfl)]
        omega

section Values

variable {minimum deleteFront : Fin n → ℤ} {a b : Fin n → BitVec 32} {trace : List (Event n)}
  (ha : ∀ i, 0 ≤ (a i).toInt ∧ (a i).toInt ≤ 999) (hb : ∀ i, 0 ≤ (b i).toInt ∧ (b i).toInt ≤ 999)
  (hrun : Run (Restrict Step SafeRead) (initialWith minimum deleteFront a b) trace s)

include ha hb hrun

theorem ranged_of_run :
    Ranged (history trace) s (exactValues (initialWith minimum deleteFront a b) trace) := by
  induction hrun with
  | nil =>
    refine ⟨fun i newer y older heq => ?_, fun i => trivial⟩
    obtain ⟨rfl, rfl, rfl⟩ : newer = [] ∧ i.val = y ∧ older = [] := by
      cases newer with
      | nil =>
        obtain ⟨hy, holder⟩ := List.cons.inj heq
        exact ⟨rfl, hy, holder.symm⟩
      | cons z newer => simp [history] at heq
    have hheap : (initialWith minimum deleteFront a b).heap i.val = ⟨a i, b i, 0, none⟩ := initial_heap a b i
    simp only [exactValues, exactOf, hheap]
    have hai := ha i
    have hbi := hb i
    exact ⟨⟨hai.1, hai.2⟩, hbi.1, hbi.2⟩
  | @cons trace s s' e hrun hstep ih =>
    rw [history_of_run e hrun.of_restrict, exactValues, ← hrun.of_restrict.eq_replay]
    exact ih.step (owned_of_run hrun.of_restrict) hstep.1 hstep.2

theorem noOverflow_of_exact
    (hfew : ∀ i, trace.count (.enter i) ≤ (2 ^ 31 - 1 - 999) / 99)
    (hexact : exactOf s = exactValues (initialWith minimum deleteFront a b) trace) (e : Event n)
    (henabled : Enabled s e) : NoOverflow s e := by
  have hranged := ranged_of_run ha hb hrun
  rw [← hexact] at hranged
  refine hranged.noOverflow (owned_of_run hrun.of_restrict) (fun i hbefore => ?_) henabled
  have hlength := length_history_le hrun.of_restrict i
  rw [State.BeforeInsert] at hbefore
  rw [if_pos hbefore] at hlength
  exact hlength.trans (hfew i)

theorem exactOf_of_run (hfew : ∀ i, trace.count (.enter i) ≤ (2 ^ 31 - 1 - 999) / 99) :
    exactOf s = exactValues (initialWith minimum deleteFront a b) trace := by
  induction hrun with
  | nil => rfl
  | @cons trace s s' e hrun hstep ih =>
    have hbefore : ∀ i, trace.count (.enter i) ≤ (2 ^ 31 - 1 - 999) / 99 := fun i =>
      List.count_le_count_cons.trans (hfew i)
    have hexact := ih hbefore
    obtain ⟨⟨henabled, rfl⟩, -⟩ := hstep
    rw [exactOf_effect henabled (noOverflow_of_exact ha hb hrun hbefore hexact e henabled), exactValues,
      ← hrun.of_restrict.eq_replay, hexact]

end Values

/-- As long as no update reads a value with a negative remainder from a freed node: the node of a
thread's `k`-th update, in exact arithmetic, has `A` between `0` and `999 + 99 * k` and `B` between
`-99 * k` and `999`; and while no thread has made more than `(2 ^ 31 - 1 - 999) / 99` updates, the one
under way counted, the machine holds these numbers and its next sum does not overflow. -/
theorem values_in_range {minimum deleteFront : Fin n → ℤ} {a b : Fin n → BitVec 32}
    {trace : List (Event n)} (ha : ∀ i, 0 ≤ (a i).toInt ∧ (a i).toInt ≤ 999)
    (hb : ∀ i, 0 ≤ (b i).toInt ∧ (b i).toInt ≤ 999)
    (hrun : Run (Restrict Step SafeRead) (initialWith minimum deleteFront a b) trace s) :
    let x := exactValues (initialWith minimum deleteFront a b) trace
    (∀ i y, InList s i y → y ∈ history trace i) ∧
      (∀ i newer y older, history trace i = newer ++ y :: older →
        0 ≤ x.nodeA y ∧ x.nodeA y ≤ 999 + 99 * older.length ∧
          -(99 * older.length) ≤ x.nodeB y ∧ x.nodeB y ≤ 999) ∧
      ((∀ i, trace.count (.enter i) ≤ (2 ^ 31 - 1 - 999) / 99) →
        exactOf s = x ∧ ∀ e, Enabled s e → NoOverflow s e) := by
  refine ⟨fun i y hy => hy.mem_of_owned (owned_of_run hrun.of_restrict),
    fun i newer y older heq => ?_, fun hfew => ?_⟩
  · obtain ⟨⟨hA, hA'⟩, hB, hB'⟩ := (ranged_of_run ha hb hrun).nodes i newer y older heq
    exact ⟨hA, hA', hB, hB'⟩
  · have hexact := exactOf_of_run ha hb hrun hfew
    exact ⟨hexact, noOverflow_of_exact ha hb hrun hfew hexact⟩

/-- Thread `0` has read thread `1`'s `A` and is about to subtract from its `B`. -/
def halfUpdate : List (Event 2) :=
  [.testRun 0, .pick 0 1, .enter 0, .readHead 0, .readOwn 0, .readA 0 199]

theorem values_in_range_halfUpdate :
    let start := initialWith (fun _ => 0) (fun _ => 0) ![900, 199] ![3, 4]
    let s := execute effect start halfUpdate
    (exactValues start halfUpdate.reverse).nodeB 0 ≤ 999 ∧
      (s.updater 0).myA.toInt = (exactValues start halfUpdate.reverse).myA 0 ∧
      NoOverflow s (.readAAgain 0 199) := by
  intro start s
  have hrun : Run (Restrict Step SafeRead) start halfUpdate.reverse s :=
    run_execute_restrict (by decide +kernel)
  have hvalues : ∀ i, 0 ≤ ((![900, 199] : Fin 2 → BitVec 32) i).toInt ∧
      ((![900, 199] : Fin 2 → BitVec 32) i).toInt ≤ 999 := by decide +kernel
  have hvalues' : ∀ i, 0 ≤ ((![3, 4] : Fin 2 → BitVec 32) i).toInt ∧
      ((![3, 4] : Fin 2 → BitVec 32) i).toInt ≤ 999 := by decide +kernel
  have hfew : ∀ i, halfUpdate.reverse.count (.enter i) ≤ (2 ^ 31 - 1 - 999) / 99 := by decide +kernel
  have henabled : Enabled s (.readAAgain 0 199) := by decide +kernel
  obtain ⟨-, hnodes, hmachine⟩ := values_in_range hvalues hvalues' hrun
  obtain ⟨hexact, hfits⟩ := hmachine hfew
  exact ⟨(hnodes 0 [] 0 [] rfl).2.2.2, congrFun (congrArg Exact.myA hexact) 0, hfits _ henabled⟩

/-- The reader whose node has been freed finds a word there that reads as `-1`, and goes on. -/
def freedRead : List (Event 3) :=
  overtakenReader ++ [.readA 0 0xffffffff, .readAAgain 0 0xffffffff, .insert 0]

/-- The node of thread `0`'s first update has a negative `A`. -/
theorem freedRead_negative :
    let start := initialWith (fun _ => 0) (fun _ => 0) ![0, 5, 5] fun _ => 7
    let s := execute effect start freedRead
    Run Step start freedRead.reverse s ∧ history freedRead.reverse 0 = [s.singlyList 0, 0] ∧
      (s.heap (s.singlyList 0)).A.toInt = -1 ∧
      (exactValues start freedRead.reverse).nodeA (s.singlyList 0) = -1 := by
  intro start s
  refine ⟨run_execute (by decide +kernel), ?_, ?_, ?_⟩
  · decide +kernel
  · decide +kernel
  · decide +kernel

end Multicore.Mvcc
