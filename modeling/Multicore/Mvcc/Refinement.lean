import Multicore.Bakery.Starvation
import Multicore.Mvcc.Conservation
import Multicore.Mvcc.Outline

/-!
# The sections as single events

Every run of the program with its sections taken statement by statement is a run of `Model`. A section is
the event `enter` or `leave` at the statement where it takes effect. Until then the lists are those the
section started from, although memory is on its way to others, and no thread can tell, since memory is
only looked at under the lock; the exception is `minimum`, which the collector reads at any time and which
the outline therefore puts in step with the effect.

So what holds in every state of `Model` holds of the program with a lock around its sections, whichever
lock it is.
-/

namespace Multicore.Mvcc

variable {n : ℕ}

/-! ### What a statement does to the rest -/

section Statement

variable {i : Fin n} {m m' : Memory n} {x x' : Section n} {u u' : Updater n}

theorem Memory.setQueue_minimum {p r : Fin n} {q : QueueHead} (hq : q.minimum = (m.queue p).minimum) :
    ((m.setQueue p q).queue r).minimum = (m.queue r).minimum := by
  by_cases heq : r = p
  · subst heq
    simpa using hq
  · simp [Memory.setQueue, heq]

theorem Memory.setDeleteFront_minimum (m : Memory n) (p r : Fin n) (deleteFront : ℤ) :
    ((m.setDeleteFront p deleteFront).queue r).minimum = (m.queue r).minimum :=
  Memory.setQueue_minimum rfl

theorem Represents.minimum {P : Protected n} (h : Represents m P) (p : Fin n) :
    (m.queue p).minimum = (P.queue p).minimum := by
  obtain ⟨qs, hqs⟩ := h.queue
  exact hqs.minimum p

/-- Behind its effect a section has one assignment left to do, or none. -/
theorem Placed.behind (h : Placed x (left u)) (hin : x.pc ≠ .out) :
    x.pc = .unlock ∨ x.pc = .setDeleteFront := by
  cases hpc : x.pc <;> simp_all [Placed, left]

/-- A statement leads to another one of the same section, or to one behind its effect. `minimum` moves
with the effect only. -/
theorem statement_frame (hstep : statement i m x u = some (m', x', u')) (hplaced : Placed x u) :
    Placed x' u' ∧ x'.pc ≠ .out ∧ x'.pc ≠ .locking ∧
      (u' = u → ∀ p, (m'.queue p).minimum = (m.queue p).minimum) := by
  have hleft : u.pc = .leave → left u ≠ u := fun hpc heq => by
    have hcount : UpdaterPc.countUp = u.pc := congrArg Updater.pc heq
    simp [hpc] at hcount
  cases hpc : x.pc <;> simp only [Placed, hpc] at hplaced <;>
    simp only [statement, hpc, afterDelete] at hstep
  case frontTest | removeRearTest =>
    obtain ⟨a, -, heq⟩ := Option.map_eq_some_iff.mp hstep
    split at heq <;> obtain ⟨rfl, rfl, rfl⟩ := heq <;>
      exact ⟨hplaced, SectionPc.noConfusion, SectionPc.noConfusion, fun _ _ => rfl⟩
  case frontDiffers =>
    obtain ⟨a, -, heq⟩ := Option.map_eq_some_iff.mp hstep
    split at heq <;> obtain ⟨rfl, rfl, rfl⟩ := heq
    · exact ⟨hplaced, SectionPc.noConfusion, SectionPc.noConfusion, fun _ _ => rfl⟩
    · exact ⟨trivial, SectionPc.noConfusion, SectionPc.noConfusion, fun _ _ => rfl⟩
  case setMinimum | setMinimumFront =>
    obtain ⟨rfl, rfl, rfl⟩ := Option.some.inj hstep
    exact ⟨trivial, SectionPc.noConfusion, SectionPc.noConfusion, fun heq => absurd heq (hleft hplaced)⟩
  all_goals
    (repeat' split at hstep) <;>
    simp only [Option.map_eq_some_iff, Option.bind_eq_some_iff, Option.some.injEq, Prod.mk.injEq,
      reduceCtorEq] at hstep <;>
    first
      | obtain ⟨rfl, rfl, rfl⟩ := hstep
      | obtain ⟨a, -, rfl, rfl, rfl⟩ := hstep
      | obtain ⟨b, -, a, -, rfl, rfl, rfl⟩ := hstep
  all_goals first
    | exact ⟨hplaced, SectionPc.noConfusion, SectionPc.noConfusion, fun _ _ => rfl⟩
    | exact ⟨trivial, SectionPc.noConfusion, SectionPc.noConfusion, fun _ _ => rfl⟩
    | exact ⟨hplaced, SectionPc.noConfusion, SectionPc.noConfusion, fun _ _ => Memory.setQueue_minimum rfl⟩
    | exact ⟨trivial, SectionPc.noConfusion, SectionPc.noConfusion, fun _ _ => Memory.setQueue_minimum rfl⟩

theorem QueuesRep.front_live {qs : Fin n → List Addr} {queue : Fin n → Queue ℤ} {p : Fin n} {a : Addr}
    (hqs : QueuesRep m qs queue) (hfront : a ∈ (m.queue p).front.toList) : m.NodeLive a :=
  (hqs.rep p).live a ((hqs.rep p).chain.mem_of_eq_some (Option.mem_toList.mp hfront))

/-- A statement touches live nodes only. -/
theorem Outline.touched_live {P : Protected n} (h : Outline i P m x u) :
    (∀ a ∈ activeTouched x, m.ActiveLive a) ∧ ∀ a ∈ nodeTouched m x u, m.NodeLive a := by
  cases hpc : x.pc <;> simp only [Outline, hpc] at h <;> simp only [activeTouched, nodeTouched, hpc] <;>
    simp only [List.not_mem_nil, false_implies, implies_true, and_true, true_and]
  case linkNode => simpa using h.2.1
  case capture =>
    intro a ha
    obtain ⟨-, -, xs, ys, has, hchain, -⟩ := h
    exact has.live a (List.mem_append_right xs (hchain.mem_of_eq_some (Option.mem_toList.mp ha)))
  case captureNext =>
    obtain ⟨-, -, xs, a, ys, has, hsome, -⟩ := h
    simpa [hsome] using has.live a (by simp)
  case deleteTest =>
    intro a ha
    obtain ⟨-, xs, ys, has, hchain, -⟩ := h
    exact has.live a (List.mem_append_right xs (hchain.mem_of_eq_some (Option.mem_toList.mp ha)))
  case deleteNext =>
    obtain ⟨-, xs, a, ys, has, hsome, -⟩ := h
    simpa [hsome] using has.live a (by simp)
  case deleteHead | deleteFree =>
    obtain ⟨a, hsome, ha, -⟩ := h
    simpa [hsome] using ha
  case deleteLink =>
    obtain ⟨b, a, hback, hsome, hb, ha, -⟩ := h
    simpa [hback, hsome] using ⟨hb, ha⟩
  case addLink =>
    obtain ⟨-, rear, hrear, hlive, -⟩ := h
    simpa [hrear] using hlive
  case frontTest =>
    obtain ⟨qs, hqs⟩ := h.2.queue
    exact fun a => hqs.front_live
  case popFront =>
    obtain ⟨qs, hqs⟩ := h.2.1.queue
    exact fun a => hqs.front_live
  case frontDiffers =>
    obtain ⟨qs, hqs⟩ := h.2.2.queue
    exact fun a => hqs.front_live
  case popFree =>
    obtain ⟨-, -, a, hsome, ha, -⟩ := h
    simpa [hsome] using ha
  case removeStep =>
    intro a ha
    obtain ⟨-, -, -, qs, xs, ys, hqs, hsplit, hchain, -⟩ := h
    refine (hqs.rep u.pickedThreadIndex).live a ?_
    rw [hsplit]
    exact List.mem_append_right xs (hchain.mem_of_eq_some (Option.mem_toList.mp ha))
  case removeNext =>
    obtain ⟨-, -, -, qs, xs, a, ys, hqs, hsplit, hsome, -⟩ := h
    simpa [hsome] using (hqs.rep u.pickedThreadIndex).live a (by simp [hsplit])
  case removeLink =>
    obtain ⟨b, a, hback, hsome, hb, ha, -⟩ := h
    simpa [hback, hsome] using ⟨hb, ha⟩
  case removeFree =>
    obtain ⟨b, a, hback, hsome, hb, ha, -⟩ := h
    simpa [hsome] using ha
  case removeRearTest =>
    obtain ⟨b, hback, hb, -⟩ := h
    simpa [hback] using hb

end Statement

/-! ### The lists beside the rest of the state -/

/-- A state of `Model` with the given counter, active list and queues. -/
def State.withProtected (s : State n) (P : Protected n) : State n :=
  { s with atomicCounter := P.atomicCounter, activeList := P.activeList, queue := P.queue }

section Outside

variable {s : State n} {P : Protected n} {e : Event n}

@[simp] theorem withProtected_collector : (s.withProtected P).collector = s.collector := rfl

theorem enabled_withProtected : Enabled (s.withProtected P) e ↔ Enabled s e := by
  cases e <;> exact Iff.rfl

theorem collectStep_visit {p : Fin n} {a : Addr} (hpc : s.collector.pc = .visit p)
    (htmp : s.collector.tmp = some a) :
    collectStep s = s.setCollector
      (if s.collector.deleteFlag = false ∧ ((s.heap a).version : ℤ) < s.collector.minimum then
        { s.collector with pc := .cut p, deleteFlag := true }
      else { s.collector with pc := .advance p }) := by
  simp only [collectStep, hpc, htmp]
  split <;> rfl

theorem collectStep_withProtected (hminimum : ∀ p, (s.queue p).minimum = (P.queue p).minimum) :
    collectStep (s.withProtected P) = (collectStep s).withProtected P := by
  cases hpc : s.collector.pc with
  | done => simp only [collectStep, withProtected_collector, hpc]
  | testRun | testVerbosing | readHead | advance =>
    simp only [collectStep, withProtected_collector, hpc]
    rfl
  | readMinimum p =>
    simp only [collectStep, withProtected_collector, hpc]
    rw [hminimum p]
    rfl
  | visit p =>
    cases htmp : s.collector.tmp with
    | none =>
      simp only [collectStep, withProtected_collector, hpc, htmp]
      rfl
    | some a =>
      rw [collectStep_visit hpc htmp, collectStep_visit (s := s.withProtected P) hpc htmp]
      rfl
  | cut p | free p =>
    simp only [collectStep, withProtected_collector, hpc]
    cases s.collector.back <;> rfl

/-- Outside the sections an event sees nothing of the lists but `minimum`, and changes nothing of them. -/
theorem effect_withProtected (hminimum : ∀ p, (s.queue p).minimum = (P.queue p).minimum)
    (hsection : e.isSection = false) :
    effect (s.withProtected P) e = (effect s e).withProtected P := by
  cases e with
  | enter i | leave i => cases hsection
  | collect => exact collectStep_withProtected hminimum
  | pick i p =>
    by_cases hverbosing : s.isVerbosing = true
    · rw [effect, effect, if_pos hverbosing, if_pos (show (s.withProtected P).isVerbosing = true from hverbosing)]
      rfl
    · rw [effect, effect, if_neg hverbosing, if_neg (show (s.withProtected P).isVerbosing ≠ true from hverbosing)]
      rfl
  | search i =>
    rw [effect, effect]
    cases hcursor : (s.updater i).cursorSinglyNode with
    | none => rw [searchStep_none hcursor, searchStep_none (s := s.withProtected P) hcursor]
    | some a =>
      by_cases hlt : (s.heap a).version < (s.updater i).activeThreadVersion
      · rw [searchStep_stop hcursor hlt, searchStep_stop (s := s.withProtected P) hcursor hlt]
        rfl
      · rw [searchStep_follow hcursor hlt, searchStep_follow (s := s.withProtected P) hcursor hlt]
        rfl
  | _ => rfl

end Outside

/-! ### The simulation -/

/-- The state of the program, with the lists `P` in place of memory, is one of `Model`. Either no thread
is in a section, and memory holds the lists, or one is, and memory is as its outline says. -/
structure Simulates {L : Lock n} (s : Fine L) (P : Protected n) : Prop where
  minimum : ∀ p, (s.memory.queue p).minimum = (P.queue p).minimum
  order : ∃ order, Run (fun l i l' => L.advance l i = some l') L.initial order s.lock
  held : ∀ i, L.holds s.lock i = true ↔ (s.inside i).pc ≠ .out ∧ (s.inside i).pc ≠ .locking
  free : (∀ i, L.holds s.lock i = false) → Represents s.memory P
  outline : ∀ i, L.holds s.lock i = true → Outline i P s.memory (s.inside i) (s.outside.updater i)
  placed : ∀ i, Placed (s.inside i) (s.outside.updater i)

/-- What `main` has the lists start with. -/
def Protected.initial (n : ℕ) : Protected n := ⟨0, [], fun _ => Queue.createQueue⟩

theorem represents_initial (active : Addr → ActiveCell n) (node : Addr → QueueCell) :
    Represents (initialMemory active node) (Protected.initial n) := by
  refine ⟨rfl, ⟨[], rfl, rfl, List.nodup_nil, by simp⟩, ⟨fun _ => [], ?_⟩, fun _ _ => rfl, fun _ _ => rfl⟩
  refine ⟨fun p => ⟨rfl, rfl, rfl, fun hne => absurd rfl hne, List.nodup_nil, by simp⟩,
    fun p => Queue.wellFormed_createQueue, fun p => rfl, fun p => rfl, by simp⟩

section Simulation

variable {L : Lock n} {s s' : Fine L} {P : Protected n} {i : Fin n}

theorem simulates_initial (a b : Fin n → BitVec 32) (active : Addr → ActiveCell n)
    (node : Addr → QueueCell) : Simulates (initialFine L a b active node) (Protected.initial n) where
  minimum _ := rfl
  order := ⟨[], .nil⟩
  held i := by simp [initialFine, initialSection, L.not_holds_initial]
  free _ := represents_initial active node
  outline i hi := by simp [initialFine, L.not_holds_initial] at hi
  placed _ := trivial

theorem Simulates.alone (h : Simulates s P) (hi : L.holds s.lock i = true) {j : Fin n} (hne : j ≠ i) :
    L.holds s.lock j = false := by
  obtain ⟨order, hrun⟩ := h.order
  by_contra hj
  exact hne (L.exclusive order s.lock j i hrun (by simpa using hj) hi)

theorem Simulates.outside {e : Event n} (h : Simulates s P) (hstep : Fine.Step L s (.outside e) s') :
    Step (s.outside.withProtected P) e (s'.outside.withProtected P) ∧ e.isSection = false ∧
      Simulates s' P := by
  simp only [Fine.Step, Fine.advance] at hstep
  split at hstep
  case isFalse => cases hstep
  case isTrue hguard =>
    obtain ⟨hsection, hout, henabled⟩ := hguard
    obtain rfl := Option.some.inj hstep
    have hminimum : ∀ p, (s.view.queue p).minimum = (P.queue p).minimum := h.minimum
    refine ⟨⟨enabled_withProtected.mpr henabled, ?_⟩, hsection, ?_⟩
    · exact (effect_withProtected hminimum hsection).symm
    · -- A thread in a section has no event outside.
      have hupdater : ∀ j, (s.inside j).pc ≠ .out → (effect s.view e).updater j = s.outside.updater j :=
        fun j hj => updater_effect_of_ne fun heq => hj (hout j heq)
      refine ⟨h.minimum, h.order, h.held, h.free, fun j hj => ?_, fun j => ?_⟩
      · rw [hupdater j ((h.held j).mp hj).1]
        exact h.outline j hj
      · by_cases hj : (s.inside j).pc = .out
        · simp only [Placed, hj]
        · rw [hupdater j hj]
          exact h.placed j

theorem setUpdater_self (s : State n) (i : Fin n) : s.setUpdater i (s.updater i) = s := by
  simp [State.setUpdater]

/-- A thread that does not have the lock, and does not get it, moves. -/
theorem Simulates.wait (h : Simulates s P) {x : Section n} {l : L.State}
    (horder : ∃ order, Run (fun l i l' => L.advance l i = some l') L.initial order l)
    (hothers : ∀ j, j ≠ i → L.holds l j = L.holds s.lock j) (hbefore : L.holds s.lock i = false)
    (hafter : L.holds l i = false) (hx : x.pc = .out ∨ x.pc = .locking)
    (hplaced : Placed x (s.outside.updater i)) : Simulates ({ s with lock := l }.setInside i x) P := by
  have hlock : ∀ j, L.holds l j = L.holds s.lock j := fun j => by
    by_cases heq : j = i
    · rw [heq, hbefore, hafter]
    · exact hothers j heq
  refine ⟨h.minimum, horder, fun j => ?_, fun hnone => h.free fun j => ?_, fun j hj => ?_, fun j => ?_⟩
  · by_cases heq : j = i
    · subst heq
      rcases hx with hx | hx <;> simp [Fine.setInside, hafter, hx]
    · simpa [Fine.setInside, heq, hlock] using h.held j
  · rw [← hlock]
    exact hnone j
  · have hj' : L.holds s.lock j = true := (hlock j).symm.trans hj
    have hne : j ≠ i := fun heq => by simp [heq, hbefore] at hj'
    simpa [Fine.setInside, hne] using h.outline j hj'
  · by_cases heq : j = i
    · subst heq
      simpa [Fine.setInside] using hplaced
    · simpa [Fine.setInside, heq] using h.placed j

/-- A thread moves while no other one has the lock. -/
theorem Simulates.move (h : Simulates s P) {Q : Protected n} {m : Memory n} {x : Section n} {l : L.State}
    {u : Updater n} (horder : ∃ order, Run (fun l i l' => L.advance l i = some l') L.initial order l)
    (hothers : ∀ j, j ≠ i → L.holds l j = L.holds s.lock j) (halone : ∀ j, j ≠ i → L.holds s.lock j = false)
    (hminimum : ∀ p, (m.queue p).minimum = (Q.queue p).minimum)
    (hheld : L.holds l i = true ↔ x.pc ≠ .out ∧ x.pc ≠ .locking)
    (hfree : L.holds l i = false → Represents m Q) (houtline : L.holds l i = true → Outline i Q m x u)
    (hplaced : Placed x u) :
    Simulates ({ s with lock := l, memory := m, outside := s.outside.setUpdater i u }.setInside i x) Q := by
  refine ⟨hminimum, horder, fun j => ?_, fun hnone => hfree (hnone i), fun j hj => ?_, fun j => ?_⟩
  · by_cases heq : j = i
    · subst heq
      simpa [Fine.setInside] using hheld
    · simpa [Fine.setInside, heq, hothers] using h.held j
  · have heq : j = i := by
      by_contra hne
      exact Bool.noConfusion (hj.symm.trans ((hothers j hne).trans (halone j hne)))
    subst heq
    simpa [Fine.setInside, State.setUpdater] using houtline hj
  · by_cases heq : j = i
    · subst heq
      simpa [Fine.setInside, State.setUpdater] using hplaced
    · simpa [Fine.setInside, State.setUpdater, heq] using h.placed j

theorem Simulates.begin (h : Simulates s P) (hstep : Fine.Step L s (.begin i) s') :
    s'.outside = s.outside ∧ Simulates s' P := by
  simp only [Fine.Step, Fine.advance] at hstep
  split at hstep
  case isFalse => cases hstep
  case isTrue hguard =>
    obtain ⟨hout, hpc⟩ := hguard
    obtain rfl := Option.some.inj hstep
    have hfree : L.holds s.lock i = false := by
      by_contra hi
      exact ((h.held i).mp (by simpa using hi)).1 hout
    exact ⟨rfl, h.wait h.order (fun _ _ => rfl) hfree hfree (.inr rfl) hpc⟩

/-- The step of `lock` after which the thread has it. -/
theorem Simulates.lock (h : Simulates s P) (hstep : Fine.Step L s (.lock i) s') :
    s'.outside = s.outside ∧ Simulates s' P := by
  simp only [Fine.Step, Fine.advance] at hstep
  split at hstep
  case isFalse => cases hstep
  case isTrue hlocking =>
    obtain ⟨l, hl, rfl⟩ := Option.map_eq_some_iff.mp hstep
    have hothers : ∀ j, j ≠ i → L.holds l j = L.holds s.lock j := fun j =>
      L.others s.lock i l j hl
    obtain ⟨order, hrun⟩ := h.order
    have horder : ∃ order, Run (fun l i l' => L.advance l i = some l') L.initial order l :=
      ⟨i :: order, .cons hrun hl⟩
    have hbefore : L.holds s.lock i = false := by
      by_contra hi
      exact ((h.held i).mp (by simpa using hi)).2 hlocking
    refine ⟨rfl, ?_⟩
    cases hafter : L.holds l i with
    | false =>
      simp only [Bool.false_eq_true, if_false]
      exact h.wait horder hothers hbefore hafter (.inr hlocking) (h.placed i)
    | true =>
      simp only [if_true]
      have halone : ∀ j, j ≠ i → L.holds s.lock j = false := fun j hne => by
        by_contra hj
        rw [← hothers j hne] at hj
        exact hne (L.exclusive (i :: order) l j i (.cons hrun hl) (by simpa using hj) hafter)
      have hrep : Represents s.memory P := h.free fun j => by
        by_cases heq : j = i
        · rw [heq, hbefore]
        · exact halone j heq
      have hplaced := h.placed i
      simp only [Placed, hlocking] at hplaced
      have hpc : (Fine.firstStatement (s.outside.updater i) = .increment ∧ (s.outside.updater i).pc = .enter) ∨
          (Fine.firstStatement (s.outside.updater i) = .deleteInit ∧ (s.outside.updater i).pc = .leave) := by
        rcases hplaced with hpc | hpc <;> simp [Fine.firstStatement, hpc]
      have hmoved := h.move (i := i) (l := l) (m := s.memory) (Q := P) (u := s.outside.updater i)
        (x := (s.inside i).goto (Fine.firstStatement (s.outside.updater i))) horder hothers halone h.minimum
      rw [setUpdater_self] at hmoved
      rcases hpc with ⟨hfirst, hpc⟩ | ⟨hfirst, hpc⟩ <;> rw [hfirst] at hmoved ⊢
      · exact hmoved (by simp [hafter, Section.goto]) (fun _ => hrep) (fun _ => hrep) hpc
      · exact hmoved (by simp [hafter, Section.goto]) (fun _ => hrep) (fun _ => hrep) hpc

theorem Simulates.unlock (h : Simulates s P) (hstep : Fine.Step L s (.unlock i) s') :
    s'.outside = s.outside ∧ Simulates s' P := by
  simp only [Fine.Step, Fine.advance] at hstep
  split at hstep
  case isFalse => cases hstep
  case isTrue hunlock =>
    obtain ⟨l, hl, rfl⟩ := Option.map_eq_some_iff.mp hstep
    have hbefore : L.holds s.lock i = true := (h.held i).mpr (by simp [hunlock])
    have hafter := L.release s.lock i l hl hbefore
    obtain ⟨order, hrun⟩ := h.order
    have hrep := h.outline i hbefore
    simp only [Outline, hunlock] at hrep
    have hmoved := h.move (i := i) (l := l) (m := s.memory) (Q := P) (u := s.outside.updater i)
      (x := (s.inside i).goto .out) ⟨i :: order, .cons hrun hl⟩ (fun j => L.others s.lock i l j hl)
      (fun j => h.alone hbefore) h.minimum (by simp [hafter, Section.goto]) (fun _ => hrep)
      (by simp [hafter]) trivial
    rw [setUpdater_self] at hmoved
    exact ⟨rfl, hmoved⟩

theorem firstSection_withProtected {s : State n} {x : Section n}
    (htook : Took P i (s.updater i).pickedThreadIndex x) :
    firstSection (s.withProtected P) i =
      (s.setUpdater i (entered x (s.updater i))).withProtected
        (P.enter i (s.updater i).pickedThreadIndex) := by
  simp only [entered, htook.version, htook.capture, htook.found]
  rfl

/-- Where the front of a queue is looked at, the reader's own entry is still in it. -/
theorem Simulates.queue_ne_nil (h : Simulates s P) {hist : Fin n → List Addr}
    (hinv : Inv hist (s.outside.withProtected P)) (hi : L.holds s.lock i = true)
    (hpc : (s.inside i).pc = .frontTest) :
    (P.queue (s.outside.updater i).pickedThreadIndex).versions ≠ [] := by
  have hactive := h.outline i hi
  have hplaced := h.placed i
  simp only [Outline, hpc] at hactive
  simp only [Placed, hpc] at hplaced
  obtain ⟨entries, hqueues⟩ := hinv.queues
  have hreg : Registered (s.outside.withProtected P) i (s.outside.updater i).pickedThreadIndex
      (s.outside.updater i).activeThreadVersion := by
    refine ⟨?_, hactive.1, rfl, rfl⟩
    exact congrArg UpdaterPc.inFlight hplaced
  have hmem := (hqueues _).mem_of_registered hreg
  intro hnil
  have hversions := (hqueues (s.outside.updater i).pickedThreadIndex).versions
  rw [show (s.outside.withProtected P).queue = P.queue from rfl, hnil] at hversions
  rw [List.map_eq_nil_iff.mp hversions.symm] at hmem
  cases hmem

/-- A statement goes on inside the section, or is the one at which the section takes effect. -/
theorem Simulates.statement (h : Simulates s P) {hist : Fin n → List Addr}
    (hinv : Inv hist (s.outside.withProtected P)) (hstep : Fine.Step L s (.statement i) s') :
    s'.outside = s.outside ∧ Simulates s' P ∨
      ∃ d P', Event.isSection d = true ∧
        Step (s.outside.withProtected P) d (s'.outside.withProtected P') ∧ Simulates s' P' := by
  obtain ⟨⟨m', x', u'⟩, hstatement, rfl⟩ := Option.map_eq_some_iff.mp hstep
  have hplaced := h.placed i
  have hin : (s.inside i).pc ≠ .out ∧ (s.inside i).pc ≠ .locking ∧ (s.inside i).pc ≠ .unlock := by
    refine ⟨fun hpc => ?_, fun hpc => ?_, fun hpc => ?_⟩ <;>
      simp [Mvcc.statement, hpc] at hstatement
  have hi : L.holds s.lock i = true := (h.held i).mpr ⟨hin.1, hin.2.1⟩
  obtain ⟨entries, hqueues⟩ := hinv.queues
  have hsafe : Outcome i P (s.outside.updater i) m' x' u' := by
    have hsafe := (h.outline i hi).safe hplaced hin (hqueues _).wellFormed (h.queue_ne_nil hinv hi)
    rwa [hstatement] at hsafe
  obtain ⟨hplaced', hout, hlocking, hminimum⟩ := statement_frame hstatement hplaced
  have hmove := fun Q hmin => h.move (i := i) (Q := Q) (m := m') (x := x') (u := u') h.order
    (fun _ _ => rfl) (fun j => h.alone hi) hmin (by simp [hi, hout, hlocking]) (by simp [hi])
  cases hsafe with
  | goOn houtline =>
    refine .inl ⟨setUpdater_self _ _, hmove P (fun p => ?_) (fun _ => houtline) hplaced'⟩
    rw [hminimum rfl p, h.minimum p]
  | enter hpc hunlock htook hrep =>
    refine .inr ⟨.enter i, _, rfl, ⟨hpc, (firstSection_withProtected htook).symm⟩,
      hmove _ (fun p => ?_) (fun _ => ?_) hplaced'⟩
    · exact hrep.minimum p
    · simp only [Outline, hunlock]
      exact hrep
  | leave hpc houtline =>
    refine .inr ⟨.leave i, P.leave i (s.outside.updater i), rfl, ⟨hpc, rfl⟩,
      hmove _ (fun p => ?_) (fun _ => houtline) hplaced'⟩
    rcases hplaced'.behind hout with hpc' | hpc' <;> simp only [Outline, hpc'] at houtline
    · exact houtline.minimum p
    · exact (Memory.setDeleteFront_minimum ..).symm.trans (houtline.minimum p)

end Simulation

/-! ### Runs -/

/-- What an observer sees who does not look into the sections. -/
def FineEvent.seen : FineEvent n → Option (Event n)
  | .outside e => some e
  | .begin _ | .lock _ | .statement _ | .unlock _ => none

def Event.seen (e : Event n) : Option (Event n) := if e.isSection then none else some e

/-- A condition on the events outside the sections. -/
def Outside (condition : State n → Event n → Prop) {L : Lock n} (s : Fine L) : FineEvent n → Prop
  | .outside e => condition s.outside e
  | .begin _ | .lock _ | .statement _ | .unlock _ => True

instance (condition : State n → Event n → Prop) [∀ s e, Decidable (condition s e)] {L : Lock n} (s : Fine L) :
    ∀ e, Decidable (Outside condition s e)
  | .outside e => inferInstanceAs (Decidable (condition s.outside e))
  | .begin _ | .lock _ | .statement _ | .unlock _ => inferInstanceAs (Decidable True)

/-- `bakery_lock` and `bakery_unlock`, which the source has beside `g_mutex`. -/
def bakeryLock (n : ℕ) : Lock n where
  State := Bakery.State n
  initial := Bakery.initial n
  advance s i := some (Bakery.effect s i)
  holds s i := decide (s.pc i = .critical)
  not_holds_initial _ := rfl
  exclusive _ _ _ _ hrun hi hj := by
    have hrun' : Run Bakery.Step (Bakery.initial n) _ _ :=
      hrun.mono fun s i s' hstep => ⟨trivial, (Option.some.inj hstep).symm⟩
    exact (Bakery.inv_of_run hrun').critical_eq (of_decide_eq_true hi) (of_decide_eq_true hj)
  others s i s' j hstep hne := by
    obtain rfl := Option.some.inj hstep
    rw [Bakery.effect_pc_of_ne hne]
  release s i s' hstep hi := by
    obtain rfl := Option.some.inj hstep
    have hpc : s.pc i = .critical := of_decide_eq_true hi
    simp [Bakery.effect, hpc]

/-- The state after an event, for running a schedule. -/
def Fine.effect {L : Lock n} (s : Fine L) (e : FineEvent n) : Fine L := (s.advance e).getD s

section Runs

variable {L : Lock n} {s s' : Fine L} {P : Protected n} {e : FineEvent n} {a b : Fin n → BitVec 32}
  {active : Addr → ActiveCell n} {node : Addr → QueueCell} {trace : List (FineEvent n)}

theorem Fine.step_of_isSome {s : Fine L} (hsome : (s.advance e).isSome = true) : Fine.Step L s e (s.effect e) := by
  obtain ⟨s', hs'⟩ := Option.isSome_iff_exists.mp hsome
  rw [Fine.effect, Fine.Step, hs', Option.getD_some]

theorem run_fine {start : Fine L} {schedule : List (FineEvent n)}
    (hall : AllEnabled (fun s e => (Fine.advance s e).isSome = true) Fine.effect start schedule) :
    Run (Fine.Step L) start schedule.reverse (execute Fine.effect start schedule) :=
  (run_execute hall).mono fun _ _ _ hstep => hstep.2 ▸ Fine.step_of_isSome hstep.1

theorem run_fine_restrict {condition : State n → Event n → Prop} {start : Fine L}
    {schedule : List (FineEvent n)}
    (hall : AllEnabled (fun s e => (Fine.advance s e).isSome = true ∧ Outside condition s e) Fine.effect start
      schedule) :
    Run (Restrict (Fine.Step L) (Outside condition)) start schedule.reverse
      (execute Fine.effect start schedule) :=
  (run_execute_restrict hall).mono fun _ _ _ hstep => ⟨hstep.1.2 ▸ Fine.step_of_isSome hstep.1.1, hstep.2⟩

theorem Simulates.answer (h : Simulates s P) {hist : Fin n → List Addr}
    (hinv : Inv hist (s.outside.withProtected P)) (hstep : Fine.Step L s e s') :
    e.seen = none ∧ s'.outside = s.outside ∧ Simulates s' P ∨
      ∃ d P', Step (s.outside.withProtected P) d (s'.outside.withProtected P') ∧ d.seen = e.seen ∧
        Simulates s' P' := by
  cases e with
  | begin i => exact .inl ⟨rfl, h.begin hstep⟩
  | lock i => exact .inl ⟨rfl, h.lock hstep⟩
  | unlock i => exact .inl ⟨rfl, h.unlock hstep⟩
  | outside e =>
    obtain ⟨hstep', hsection, hsim⟩ := h.outside hstep
    exact .inr ⟨e, P, hstep', by simp [Event.seen, FineEvent.seen, hsection], hsim⟩
  | statement i =>
    rcases h.statement hinv hstep with hsame | ⟨d, P', hsection, hstep', hsim⟩
    · exact .inl ⟨rfl, hsame⟩
    · exact .inr ⟨d, P', hstep', by simp [Event.seen, FineEvent.seen, hsection], hsim⟩

theorem FineEvent.eq_outside {d : Event n} (hsection : d.isSection = false) (hseen : d.seen = e.seen) :
    e = .outside d := by
  rw [Event.seen, hsection] at hseen
  cases e with
  | outside e => exact congrArg FineEvent.outside (Option.some.inj hseen).symm
  | begin | lock | statement | unlock => cases hseen

/-- A run of the program is a run of `Model`, with the same events outside the sections. A condition on
those events that does not look at the lists goes over with them. -/
theorem simulates_of_run {condition : State n → Event n → Prop}
    (hsections : ∀ s e, Event.isSection e = true → condition s e)
    (hlists : ∀ s P e, condition s e → condition (State.withProtected s P) e)
    (hrun : Run (Restrict (Fine.Step L) (Outside condition)) (initialFine L a b active node) trace s) :
    ∃ trace' P, Run (Restrict Step condition) (initial a b) trace' (s.outside.withProtected P) ∧
      trace'.filterMap Event.seen = trace.filterMap FineEvent.seen ∧ Simulates s P := by
  have hsim : ∀ s e s' trace' t, Run (Restrict Step condition) (initial a b) trace' t →
      (∃ P, t = s.outside.withProtected P ∧ Simulates s P) → Restrict (Fine.Step L) (Outside condition) s e s' →
      FineEvent.seen e = none ∧ (∃ P, t = s'.outside.withProtected P ∧ Simulates s' P) ∨
        ∃ d t', Restrict Step condition t d t' ∧ d.seen = e.seen ∧
          ∃ P, t' = s'.outside.withProtected P ∧ Simulates s' P := by
    rintro s e s' trace' _ hrun' ⟨P, rfl, hsim⟩ ⟨hstep, hcondition⟩
    rcases hsim.answer (inv_of_run hrun'.of_restrict) hstep with
      ⟨hnone, hsame, hsim'⟩ | ⟨d, P', hstep', hseen, hsim'⟩
    · exact .inl ⟨hnone, P, by rw [hsame], hsim'⟩
    · refine .inr ⟨d, _, ⟨hstep', ?_⟩, hseen, P', rfl, hsim'⟩
      cases hd : d.isSection with
      | true => exact hsections _ d hd
      | false =>
        obtain rfl := FineEvent.eq_outside hd hseen
        exact hlists s.outside P d hcondition
  obtain ⟨trace', _, hrun', hseen, P, rfl, h⟩ := hrun.refine (Restrict Step condition)
    (fun s t => ∃ P, t = s.outside.withProtected P ∧ Simulates s P) FineEvent.seen Event.seen
    ⟨Protected.initial n, rfl, simulates_initial a b active node⟩ hsim
  exact ⟨trace', P, hrun', hseen, h⟩

theorem exists_simulates (hrun : Run (Fine.Step L) (initialFine L a b active node) trace s) :
    ∃ trace' P, Run Step (initial a b) trace' (s.outside.withProtected P) ∧
      trace'.filterMap Event.seen = trace.filterMap FineEvent.seen ∧ Simulates s P := by
  have hrestrict : Run (Restrict (Fine.Step L) (Outside fun _ _ => True)) (initialFine L a b active node)
      trace s := hrun.mono fun s e s' hstep => ⟨hstep, by cases e <;> trivial⟩
  obtain ⟨trace', P, hrun', hseen, h⟩ := simulates_of_run (fun _ _ _ => trivial) (fun _ _ _ h => h) hrestrict
  exact ⟨trace', P, hrun'.of_restrict, hseen, h⟩

/-- Both threads are between their sections, and thread `1` found thread `0` active. Thread `1` waited for
the lock while thread `0` was in its section. -/
def oneWaited : List (FineEvent 2) :=
  List.flatten
    [[.outside (.testRun 0), .outside (.pick 0 1), .outside (.testRun 1), .outside (.pick 1 0), .begin 0,
        .lock 0, .statement 0, .begin 1],
      List.replicate 9 (.statement 0), [.unlock 0, .lock 1], List.replicate 17 (.statement 1),
      [.unlock 1, .outside (.readHead 1)]]

/-- Thread `1` leaves first and is about to take its entry out of the queue of thread `0`. -/
def leaving : List (FineEvent 2) :=
  List.flatten
    [oneWaited,
      [.outside (.readOwn 1), .outside (.search 1), .outside (.readA 1 5), .outside (.readAAgain 1 5),
        .outside (.insert 1), .begin 1, .lock 1],
      List.replicate 6 (.statement 1)]

/-- Thread `0` makes one update with `bakery_lock` in the place of `g_mutex`, then all threads end. -/
def updateUnderBakery : List (FineEvent 2) :=
  List.flatten
    [[.outside (.testRun 0), .outside (.pick 0 1), .begin 0], List.replicate 12 (.lock 0),
      List.replicate 10 (.statement 0),
      [.unlock 0, .outside (.readHead 0), .outside (.readOwn 0), .outside (.readA 0 142),
        .outside (.readAAgain 0 142), .outside (.insert 0), .begin 0],
      List.replicate 12 (.lock 0), List.replicate 4 (.statement 0),
      [.unlock 0, .outside (.countUp 0), .outside .stopRun, .outside (.testRun 0), .outside (.testRun 1),
        .outside .collect]]

end Runs

end Multicore.Mvcc
