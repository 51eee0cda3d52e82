import Multicore.BufPool.Init
import Multicore.UtList.View

/-!
# What the initialisations share

Two facts carry over from any interleaving to the end of the run: an element that is to be created is
in its list or still to be prepended by some thread, and `srv_n_page_hash_locks` holds its first value
or that value rounded up. Rounding up twice is rounding up once, so a thread that has stored finds the
rounded value at every later read, whatever the others have stored in between.
-/

namespace Multicore.BufPool.Init

open UtList (prependStep)

variable {n w : ℕ} {c : Config} {s s' : State n w} {t : Fin w} {action : Action n}
  {rest : List (Action n)}

/-! ### One step -/

/-- What a step is. -/
theorem step_cases (hstep : Step c s t s') : ∃ action rest, s.todo t = action :: rest ∧
    Asserted s action ∧ s' = (perform c s t action).setTodo t (remaining s action rest) := by
  obtain ⟨henabled, rfl⟩ := hstep
  unfold Enabled at henabled
  unfold effect
  cases htodo : s.todo t with
  | nil => rw [htodo] at henabled; exact henabled.elim
  | cons action rest => rw [htodo] at henabled; exact ⟨action, rest, rfl, henabled, rfl⟩

theorem perform_pool : (perform c s t action).pool = action.write c s.pool := by
  cases action <;> rfl

theorem perform_todo : (perform c s t action).todo = s.todo := by
  cases action <;> rfl

theorem setTodo_todo_self : (s.setTodo t rest).todo t = rest := by
  simp [State.setTodo]

theorem setTodo_todo_of_ne {other : Fin w} (hne : other ≠ t) : (s.setTodo t rest).todo other = s.todo other := by
  simp [State.setTodo, hne]

/-- Only the first action is worked on. -/
theorem subset_remaining : rest ⊆ remaining s action rest := by
  intro a ha
  unfold remaining
  cases action with
  | createMutex | createRwLock => dsimp only; split; exacts [ha, List.mem_cons_of_mem _ ha]
  | createPageHash i => exact List.mem_append_right _ ha
  | _ => exact ha

theorem mem_remaining {a : Action n} (ha : a ∈ remaining s action rest) :
    a ∈ action :: rest ∨ ∃ i, action = .createPageHash i ∧ a ∈ hashCreateSyncObj i s.hashLocks := by
  cases action with
  | createMutex | createRwLock =>
    left
    rw [remaining] at ha
    split at ha
    · exact List.mem_cons_of_mem _ ha
    · exact ha
  | createPageHash i =>
    rw [remaining, List.mem_append] at ha
    exact ha.symm.imp (List.mem_cons_of_mem _) fun h => ⟨i, rfl, h⟩
  | _ => exact .inl (List.mem_cons_of_mem _ ha)

theorem mem_hashCreateSyncObj {a : Action n} {i : Fin n} {count : ℕ}
    (ha : a ∈ hashCreateSyncObj i count) :
    (∃ k, a = .createRwLock (.pageHash i k)) ∨ a = .setPageHash i count := by
  simp only [hashCreateSyncObj, List.mem_append, List.mem_map, List.mem_singleton] at ha
  exact ha.imp_left fun ⟨k, _, hk⟩ => ⟨k, hk.symm⟩

/-! ### The elements that are still to be prepended -/

section Pending

variable {α : Type*} {locks : Action n → List α} {new : Finset α} {list : UtList.State α}
  {todo : Fin w → List (Action n)}

/-- The elements of `new` are in the list, or in the hands of a thread that prepends them. -/
structure Pending (locks : Action n → List α) (new : Finset α) (list : UtList.State α)
    (todo : Fin w → List (Action n)) : Prop where
  mem : ∀ t, ∀ e ∈ (todo t).flatMap locks, e ∈ new
  present : ∀ e ∈ new, list.prepend e ≠ .absent
  left : ∀ e ∈ new, list.prepend e = .inserted ∨ ∃ t, e ∈ (todo t).flatMap locks

/-- A step that prepends nothing. -/
theorem Pending.keep (h : Pending locks new list todo) {left : List (Action n)}
    (hleft : left.flatMap locks = (todo t).flatMap locks) :
    Pending locks new list (Function.update todo t left) := by
  have hsame : ∀ t', (Function.update todo t left t').flatMap locks = (todo t').flatMap locks := by
    intro t'
    by_cases hne : t' = t
    · rw [hne, Function.update_self, hleft]
    · rw [Function.update_of_ne hne]
  refine ⟨fun t' e he => ?_, h.present, fun e he => (h.left e he).imp_right ?_⟩
  · rw [hsame] at he
    exact h.mem t' e he
  · rintro ⟨t', ht'⟩
    exact ⟨t', by rwa [hsame]⟩

variable [DecidableEq α]

/-- A step of the prepend of `e`, which is over or remains to be done. -/
theorem Pending.prepend (h : Pending locks new list todo) {e : α} (htodo : todo t = action :: rest)
    (hlocks : locks action = [e]) :
    Pending locks new (prependStep list e) (Function.update todo t
      (if (prependStep list e).prepend e = .inserted then rest else action :: rest)) := by
  by_cases hover : (prependStep list e).prepend e = .inserted
  · rw [if_pos hover]
    refine ⟨fun t' x hx => ?_, fun x hx => UtList.prependStep_ne_absent (h.present x hx),
      fun x hx => ?_⟩
    · by_cases hne : t' = t
      · subst hne
        rw [Function.update_self] at hx
        apply h.mem t' x
        rw [htodo, List.flatMap_cons]
        exact List.mem_append_right _ hx
      · rw [Function.update_of_ne hne] at hx
        exact h.mem t' x hx
    · by_cases hne : x = e
      · rw [hne]
        exact .inl hover
      · rw [UtList.prependStep_of_ne hne]
        refine (h.left x hx).imp_right ?_
        rintro ⟨t', ht'⟩
        refine ⟨t', ?_⟩
        by_cases heq : t' = t
        · subst heq
          rw [htodo, List.flatMap_cons, hlocks, List.mem_append, List.mem_singleton] at ht'
          rw [Function.update_self]
          exact ht'.resolve_left hne
        · rwa [Function.update_of_ne heq]
  · rw [if_neg hover, ← htodo, Function.update_eq_self]
    refine ⟨h.mem, fun x hx => UtList.prependStep_ne_absent (h.present x hx), fun x hx => ?_⟩
    exact (h.left x hx).imp_left fun hins => (UtList.prependStep_settled (.inr hins)).trans hins

theorem pending_start {old : List α} {program : Fin n → List (Action n)} {owner : Fin n → Fin w}
    (hinit : UtList.Initial old
      (Finset.univ.biUnion fun i => ((program i).flatMap locks).toFinset) list) :
    Pending locks (Finset.univ.biUnion fun i => ((program i).flatMap locks).toFinset) list
      (fun t => (instancesOf owner t).flatMap program) := by
  refine ⟨fun t e he => ?_, fun e he => ?_, fun e he => .inr ?_⟩
  · obtain ⟨action, haction, he⟩ := List.mem_flatMap.mp he
    obtain ⟨i, _, hi⟩ := List.mem_flatMap.mp haction
    rw [Finset.mem_biUnion]
    exact ⟨i, Finset.mem_univ i, List.mem_toFinset.mpr (List.mem_flatMap.mpr ⟨action, hi, he⟩)⟩
  · rw [hinit.prepend, if_neg (hinit.fresh e he), if_pos he]
    simp
  · obtain ⟨i, _, hi⟩ := Finset.mem_biUnion.mp he
    obtain ⟨action, haction, he⟩ := List.mem_flatMap.mp (List.mem_toFinset.mp hi)
    have hown : i ∈ instancesOf owner (owner i) := by simp [instancesOf]
    exact ⟨owner i, List.mem_flatMap.mpr ⟨action, List.mem_flatMap.mpr ⟨i, hown, haction⟩, he⟩⟩

end Pending

theorem mutexes_hashCreateSyncObj (i : Fin n) (count : ℕ) :
    (hashCreateSyncObj i count).flatMap Action.mutexes = [] := by
  simp [hashCreateSyncObj, Action.mutexes, List.flatMap_map]

theorem rwLocks_hashCreateSyncObj (i : Fin n) (count k : ℕ) :
    (hashCreateSyncObj i count).flatMap (Action.rwLocks k) = (List.range count).map (.pageHash i) := by
  simp [hashCreateSyncObj, Action.rwLocks, List.flatMap_map, ← List.map_eq_flatMap]

theorem pendingMutexes_step {new : Finset (Mutex n)} (hstep : Step c s t s')
    (h : Pending Action.mutexes new s.mutexList s.todo) :
    Pending Action.mutexes new s'.mutexList s'.todo := by
  obtain ⟨action, rest, htodo, -, rfl⟩ := step_cases hstep
  cases action with
  | createMutex m => exact h.prepend htodo rfl
  | createPageHash i =>
    refine h.keep ?_
    rw [htodo, remaining, List.flatMap_append, mutexes_hashCreateSyncObj]
    rfl
  | createRwLock l =>
    refine h.keep ?_
    rw [htodo, remaining]
    split <;> rfl
  | _ =>
    refine h.keep ?_
    rw [htodo]
    rfl

/-- The page hashes get the number of locks that the variable holds when they are created. -/
theorem pendingRwLocks_step {new : Finset (RwLock n)} {count : ℕ} (hstep : Step c s t s')
    (hcount : ∀ i rest, s.todo t = .createPageHash i :: rest → s.hashLocks = count)
    (h : Pending (Action.rwLocks count) new s.rwLockList s.todo) :
    Pending (Action.rwLocks count) new s'.rwLockList s'.todo := by
  obtain ⟨action, rest, htodo, -, rfl⟩ := step_cases hstep
  cases action with
  | createRwLock l => exact h.prepend htodo rfl
  | createPageHash i =>
    refine h.keep ?_
    rw [htodo, remaining, List.flatMap_append, rwLocks_hashCreateSyncObj, hcount i rest htodo]
    rfl
  | createMutex m =>
    refine h.keep ?_
    rw [htodo, remaining]
    split <;> rfl
  | _ =>
    refine h.keep ?_
    rw [htodo]
    rfl

/-! ### The number of page hash locks -/

/-- Whether an action reads or writes `srv_n_page_hash_locks`. -/
def Action.usesHashLocks : Action n → Bool
  | .loadHashLocks | .storeHashLocks | .assertNonzero | .assertLimit | .createPageHash _ => true
  | _ => false

/-- Every store comes after a load and every other use after a store. The two conditions are what is
known of the value loaded before and of the variable. -/
def Checked (loaded rounded : Prop) : List (Action n) → Prop
  | [] => True
  | .loadHashLocks :: rest => Checked True rounded rest
  | .storeHashLocks :: rest => loaded ∧ Checked loaded True rest
  | .assertNonzero :: rest | .assertLimit :: rest | .createPageHash _ :: rest =>
    rounded ∧ Checked loaded rounded rest
  | .createMutex _ :: rest | .createRwLock _ :: rest | .initChunk _ :: rest | .addFree _ _ :: rest
  | .setSizes _ _ :: rest | .setPageHash _ _ :: rest => Checked loaded rounded rest

section Checked

variable {loaded rounded loaded' rounded' : Prop} {todo more : List (Action n)}

theorem Checked.mono (h : Checked loaded rounded todo) (hloaded : loaded → loaded')
    (hrounded : rounded → rounded') : Checked loaded' rounded' todo := by
  induction todo generalizing loaded rounded loaded' rounded' with
  | nil => trivial
  | cons action todo ih =>
    cases action with
    | loadHashLocks => exact ih h id hrounded
    | storeHashLocks => exact ⟨hloaded h.1, ih h.2 hloaded id⟩
    | assertNonzero | assertLimit | createPageHash =>
      exact ⟨hrounded h.1, ih h.2 hloaded hrounded⟩
    | _ => exact ih h hloaded hrounded

theorem Checked.append (h : Checked loaded rounded todo) (hmore : Checked False False more) :
    Checked loaded rounded (todo ++ more) := by
  induction todo generalizing loaded rounded with
  | nil => exact hmore.mono False.elim False.elim
  | cons action todo ih =>
    cases action with
    | storeHashLocks | assertNonzero | assertLimit | createPageHash => exact ⟨h.1, ih h.2⟩
    | _ => exact ih h

/-- Actions that do not use the variable may come in front. -/
theorem Checked.prepend (h : Checked loaded rounded more)
    (hplain : ∀ action ∈ todo, action.usesHashLocks = false) : Checked loaded rounded (todo ++ more) := by
  induction todo with
  | nil => exact h
  | cons action todo ih =>
    have hrest := ih fun a ha => hplain a (List.mem_cons_of_mem _ ha)
    have haction := hplain action List.mem_cons_self
    cases action with
    | loadHashLocks | storeHashLocks | assertNonzero | assertLimit | createPageHash => cases haction
    | _ => exact hrest

theorem checked_initInstance (c : Config) (chunk : ℕ) (i : Fin n) :
    Checked False False (initInstance c chunk i) := by
  have hblocks : ∀ action ∈ (List.range chunk).flatMap (initBlock i), action.usesHashLocks = false := by
    intro action haction
    obtain ⟨k, -, hk⟩ := List.mem_flatMap.mp haction
    simp only [initBlock, List.mem_cons, List.not_mem_nil, or_false] at hk
    rcases hk with rfl | rfl | rfl <;> rfl
  unfold initInstance
  split
  · refine Checked.append ?_ trivial
    refine Checked.prepend ?_ (by simp [Action.usesHashLocks])
    have hend : Checked False False ([.setSizes i chunk, .loadHashLocks, .storeHashLocks, .assertNonzero,
        .assertLimit, .createPageHash i] : List (Action n)) :=
      ⟨trivial, trivial, trivial, trivial, trivial⟩
    exact hend.prepend (List.forall_mem_cons.mpr ⟨rfl, hblocks⟩)
  · exact trivial

theorem checked_flatMap {instances : List (Fin n)} {program : Fin n → List (Action n)}
    (hprogram : ∀ i, Checked False False (program i)) :
    Checked False False (instances.flatMap program) := by
  induction instances with
  | nil => trivial
  | cons i instances ih =>
    rw [List.flatMap_cons]
    exact (hprogram i).append ih

end Checked

/-- The variable holds its first value or that value rounded up, the latter for every thread that
relies on it. -/
structure HashOk (first : ℕ) (s : State n w) : Prop where
  value : s.hashLocks = first ∨ s.hashLocks = ut2PowerUp first
  checked : ∀ t, Checked (s.register t = first ∨ s.register t = ut2PowerUp first)
    (s.hashLocks = ut2PowerUp first) (s.todo t)

section HashOk

variable {first : ℕ}

theorem hashOk_start {memory : Memory c n} {owner : Fin n → Fin w} {mutexList : UtList.State (Mutex n)}
    {rwLockList : UtList.State (RwLock n)} :
    HashOk first (start memory owner mutexList rwLockList first) := by
  refine ⟨.inl rfl, fun t => ?_⟩
  have hchecked : Checked False False ((start memory owner mutexList rwLockList first).todo t) :=
    checked_flatMap fun i => checked_initInstance c _ i
  exact hchecked.mono False.elim False.elim

/-- A step that leaves the variable and the values loaded from it. -/
theorem HashOk.keep (h : HashOk first s) (hhash : s'.hashLocks = s.hashLocks)
    (hregister : s'.register = s.register) {left : List (Action n)}
    (htodo : s'.todo = Function.update s.todo t left)
    (hleft : Checked (s.register t = first ∨ s.register t = ut2PowerUp first)
      (s.hashLocks = ut2PowerUp first) left) : HashOk first s' := by
  refine ⟨by rw [hhash]; exact h.value, fun t' => ?_⟩
  rw [hregister, hhash, htodo]
  by_cases hne : t' = t
  · rw [hne, Function.update_self]
    exact hleft
  · rw [Function.update_of_ne hne]
    exact h.checked t'

theorem HashOk.load (h : HashOk first s) (htodo : s.todo t = .loadHashLocks :: rest) :
    HashOk first ({ s with register := Function.update s.register t s.hashLocks }.setTodo t rest) := by
  refine ⟨h.value, fun t' => ?_⟩
  have hchecked := h.checked t'
  by_cases hne : t' = t
  · subst hne
    rw [htodo] at hchecked
    have hrest : Checked True (s.hashLocks = ut2PowerUp first) rest := hchecked
    simp only [State.setTodo, Function.update_self]
    exact hrest.mono (fun _ => h.value) id
  · simpa only [State.setTodo, Function.update_of_ne hne] using hchecked

/-- Whatever a thread has loaded, it stores the rounded value. -/
theorem HashOk.store (h : HashOk first s) (htodo : s.todo t = .storeHashLocks :: rest) :
    ut2PowerUp (s.register t) = ut2PowerUp first ∧
      HashOk first ({ s with hashLocks := ut2PowerUp (s.register t) }.setTodo t rest) := by
  have hchecked := h.checked t
  rw [htodo] at hchecked
  obtain ⟨hloaded, hrest⟩ := hchecked
  have hround : ut2PowerUp (s.register t) = ut2PowerUp first := by
    rcases hloaded with hfirst | hrounded
    · rw [hfirst]
    · rw [hrounded, ut2PowerUp_idem]
  refine ⟨hround, .inr hround, fun t' => ?_⟩
  by_cases hne : t' = t
  · subst hne
    simp only [State.setTodo, Function.update_self]
    exact hrest.mono id fun _ => hround
  · simp only [State.setTodo, Function.update_of_ne hne]
    exact (h.checked t').mono id fun _ => hround

theorem HashOk.head_rounded (h : HashOk first s) {i : Fin n}
    (htodo : s.todo t = .createPageHash i :: rest) : s.hashLocks = ut2PowerUp first := by
  have hchecked := h.checked t
  rw [htodo] at hchecked
  exact hchecked.1

theorem hashOk_step (hstep : Step c s t s') (h : HashOk first s) : HashOk first s' := by
  obtain ⟨action, rest, htodo, -, rfl⟩ := step_cases hstep
  have hchecked := h.checked t
  cases action with
  | loadHashLocks => exact h.load htodo
  | storeHashLocks => exact (h.store htodo).2
  | assertNonzero | assertLimit =>
    rw [htodo] at hchecked
    exact h.keep rfl rfl rfl hchecked.2
  | createPageHash i =>
    rw [htodo] at hchecked
    have hplain : ∀ action ∈ hashCreateSyncObj i s.hashLocks, action.usesHashLocks = false := by
      intro action haction
      rcases mem_hashCreateSyncObj haction with ⟨k, rfl⟩ | rfl <;> rfl
    exact h.keep rfl rfl rfl (hchecked.2.prepend hplain)
  | createMutex | createRwLock =>
    rw [htodo] at hchecked
    refine h.keep rfl rfl rfl ?_
    rw [remaining]
    split <;> exact hchecked
  | initChunk i | addFree i k | setSizes i chunk | setPageHash i count =>
    rw [htodo] at hchecked
    exact h.keep rfl rfl rfl hchecked

/-- No assertion fails. -/
theorem HashOk.asserted (h : HashOk first s) (hlimit : first ≤ maxPageHashLocks)
    (htodo : s.todo t = action :: rest) : Asserted s action := by
  have hchecked := h.checked t
  rw [htodo] at hchecked
  cases action with
  | assertNonzero =>
    have hpos := ut2PowerUp_pos first
    rw [← hchecked.1] at hpos
    exact hpos.ne'
  | assertLimit =>
    have hle : ut2PowerUp first ≤ 2 ^ 10 := ut2PowerUp_le hlimit
    rw [← hchecked.1] at hle
    exact hle
  | createPageHash i =>
    intro _
    rw [hchecked.1]
    exact utIs2pow_ut2PowerUp first
  | _ => trivial

theorem hashLocks_step (hstep : Step c s t s') : s'.hashLocks = s.hashLocks ∨
    ∃ rest, s.todo t = .storeHashLocks :: rest ∧ s'.hashLocks = ut2PowerUp (s.register t) := by
  obtain ⟨action, rest, htodo, -, rfl⟩ := step_cases hstep
  cases action with
  | storeHashLocks => exact .inr ⟨rest, htodo, rfl⟩
  | _ => exact .inl rfl

/-- The value is rounded up, or some thread is going to store it. -/
def Rounding (first : ℕ) (s : State n w) : Prop :=
  s.hashLocks = ut2PowerUp first ∨ ∃ t, .storeHashLocks ∈ s.todo t

theorem rounding_step (hstep : Step c s t s') (hok : HashOk first s) (h : Rounding first s) :
    Rounding first s' := by
  rcases hashLocks_step hstep with hsame | ⟨rest, htodo, hstored⟩
  · rcases h with hrounded | ⟨t', hmem⟩
    · exact .inl (hsame.trans hrounded)
    · obtain ⟨action, rest, htodo, -, rfl⟩ := step_cases hstep
      by_cases hne : t' = t
      · subst hne
        rw [htodo, List.mem_cons] at hmem
        rcases hmem with hhead | hmem
        · left
          subst hhead
          exact (hok.store htodo).1
        · exact .inr ⟨t', by rw [setTodo_todo_self]; exact subset_remaining hmem⟩
      · exact .inr ⟨t', by rwa [setTodo_todo_of_ne hne, perform_todo]⟩
  · exact .inl (hstored.trans (hok.store htodo).1)

/-- The value is as it was, and nobody is going to store another. -/
def Untouched (first : ℕ) (s : State n w) : Prop :=
  s.hashLocks = first ∧ ∀ t, .storeHashLocks ∉ s.todo t

theorem untouched_step (hstep : Step c s t s') (h : Untouched first s) : Untouched first s' := by
  rcases hashLocks_step hstep with hsame | ⟨rest, htodo, -⟩
  · refine ⟨hsame.trans h.1, fun t' hmem => ?_⟩
    obtain ⟨action, rest, htodo, -, rfl⟩ := step_cases hstep
    by_cases hne : t' = t
    · subst hne
      rw [setTodo_todo_self] at hmem
      rcases mem_remaining hmem with hold | ⟨i, -, hnew⟩
      · exact h.2 t' (htodo ▸ hold)
      · rcases mem_hashCreateSyncObj hnew with ⟨k, hk⟩ | hset
        · cases hk
        · cases hset
    · rw [setTodo_todo_of_ne hne, perform_todo] at hmem
      exact h.2 t' hmem
  · exact absurd (htodo ▸ List.mem_cons_self) (h.2 t)

/-- What `srv_n_page_hash_locks` comes to. Instances of size 0 do not look at it. -/
def finalHashLocks (c : Config) (n first : ℕ) : ℕ :=
  if 0 < instanceSize c n then ut2PowerUp first else first

section Start

variable {memory : Memory c n} {owner : Fin n → Fin w} {mutexList : UtList.State (Mutex n)}
  {rwLockList : UtList.State (RwLock n)}

theorem rounding_start (hsize : 0 < instanceSize c n) :
    Rounding first (start memory owner mutexList rwLockList first) := by
  have hpos : 0 < n := by
    by_contra hzero
    rw [instanceSize, show n = 0 by omega, Nat.div_zero] at hsize
    exact absurd hsize (Nat.lt_irrefl 0)
  obtain ⟨i⟩ : Nonempty (Fin n) := ⟨⟨0, hpos⟩⟩
  refine .inr ⟨owner i, List.mem_flatMap.mpr ⟨i, by simp [instancesOf], ?_⟩⟩
  simp [initInstance, hsize, initChunks]

theorem untouched_start (hsize : ¬ 0 < instanceSize c n) :
    Untouched first (start memory owner mutexList rwLockList first) := by
  refine ⟨rfl, fun t hmem => ?_⟩
  obtain ⟨i, -, hi⟩ := List.mem_flatMap.mp hmem
  simp [initInstance, hsize] at hi

theorem hashLocks_of_finished {trace : List (Fin w)}
    (hrun : Run (Step c) (start memory owner mutexList rwLockList first) trace s)
    (hfinished : Finished s) : s.hashLocks = finalHashLocks c n first := by
  unfold finalHashLocks
  split
  · have hinv : HashOk first s ∧ Rounding first s := by
      refine hrun.invariant (P := fun _ s => HashOk first s ∧ Rounding first s)
        ⟨hashOk_start, rounding_start ‹_›⟩ fun _ _ _ _ _ h hstep => ?_
      exact ⟨hashOk_step hstep h.1, rounding_step hstep h.1 h.2⟩
    refine hinv.2.resolve_right ?_
    rintro ⟨t, hmem⟩
    rw [hfinished t] at hmem
    cases hmem
  · have hinv : Untouched first s :=
      hrun.invariant (P := fun _ s => Untouched first s) (untouched_start ‹_›)
        fun _ _ _ _ _ h hstep => untouched_step hstep h
    exact hinv.1

end Start

end HashOk

end Multicore.BufPool.Init
