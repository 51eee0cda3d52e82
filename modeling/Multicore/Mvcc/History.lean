import Multicore.Base.Consecutive
import Multicore.Mvcc.Model

/-!
# What the shared state looks like between two events

A run remembers, for every thread, all the nodes the thread ever linked in: its history, newest
first. The list other threads see is the part of the history that the collector has not cut off.
The predicates below say how the heap, the versions, the active list, the queues and the collector
fit together; `Inv` is their conjunction, and it is the invariant of every run.

The reason the collector is safe is in `QueueOk`: `minimum` is a version the thread has already
linked in, and it is below every entry of the queue. So the newest node below any registered version
is at least as new as `minimum`, and the collector frees older nodes only.
-/

namespace Multicore.Mvcc

variable {n : ℕ}

/-- Between the two critical sections. -/
def UpdaterPc.inFlight : UpdaterPc → Bool
  | .readHead | .readOwn | .search | .readA | .readAAgain | .insert | .leave => true
  | _ => false

/-- Between the two critical sections, with the new node not linked in yet. -/
def UpdaterPc.beforeInsert : UpdaterPc → Bool
  | .readHead | .readOwn | .search | .readA | .readAAgain | .insert => true
  | _ => false

theorem UpdaterPc.inFlight_of_beforeInsert {pc : UpdaterPc} (h : pc.beforeInsert = true) :
    pc.inFlight = true := by
  cases pc <;> first | rfl | cases h

def State.InFlight (s : State n) (i : Fin n) : Prop := (s.updater i).pc.inFlight = true

def State.BeforeInsert (s : State n) (i : Fin n) : Prop := (s.updater i).pc.beforeInsert = true

instance (s : State n) (i : Fin n) : Decidable (s.InFlight i) :=
  inferInstanceAs (Decidable (_ = true))

/-- Thread `r` is between its critical sections and registered version `v` in the queue of `p`. -/
def Registered (s : State n) (r p : Fin n) (v : ℕ) : Prop :=
  s.InFlight r ∧ (s.updater r).isThreadActive = true ∧ (s.updater r).pickedThreadIndex = p ∧
    (s.updater r).activeThreadVersion = v

instance (s : State n) (r p : Fin n) (v : ℕ) : Decidable (Registered s r p v) := by
  unfold Registered
  infer_instance

def readers (s : State n) (p : Fin n) (v : ℕ) : Finset (Fin n) :=
  Finset.univ.filter fun r => Registered s r p v

theorem mem_readers {s : State n} {r p : Fin n} {v : ℕ} : r ∈ readers s p v ↔ Registered s r p v := by
  simp [readers]

/-! ### Histories -/

/-- How many nodes the updaters allocated during a run. -/
def insertions : List (Event n) → ℕ
  | [] => 0
  | .insert _ :: trace => insertions trace + 1
  | _ :: trace => insertions trace

/-- The nodes each thread linked in during a run, newest first. `malloc` hands out the addresses in
order, after the `n` initial nodes. -/
def history : List (Event n) → Fin n → List Addr
  | [] => fun i => [i.val]
  | .insert i :: trace =>
    Function.update (history trace) i ((n + insertions trace) :: history trace i)
  | _ :: trace => history trace

/-- The history after one more event. -/
def record (hist : Fin n → List Addr) (s : State n) : Event n → Fin n → List Addr
  | .insert i => Function.update hist i (s.nextAddr :: hist i)
  | _ => hist

theorem history_cons {trace : List (Event n)} {s : State n} (e : Event n)
    (hnext : s.nextAddr = n + insertions trace) :
    history (e :: trace) = record (history trace) s e := by
  cases e <;> simp [history, record, hnext]

/-! ### The invariant -/

/-- The lists in memory. A link points to the next older node of the history, unless the collector
cut it there; freed and cut-off nodes are older than `minimum`. -/
structure Lists (hist : Fin n → List Addr) (s : State n) : Prop where
  head : ∀ p, (hist p).head? = some (s.singlyList p)
  sorted : ∀ p, (hist p).Pairwise fun a b => (s.heap b).version < (s.heap a).version
  fresh : ∀ p, ∀ a ∈ hist p, a < s.nextAddr
  owner : ∀ p q a, a ∈ hist p → a ∈ hist q → p = q
  link : ∀ p a b, Consecutive (hist p) a b → (s.heap a).link = some b ∨
    (s.heap a).link = none ∧ ((s.heap b).version : ℤ) < (s.queue p).minimum
  last : ∀ p a, (hist p).getLast? = some a → (s.heap a).link = none ∧ (s.heap a).version = 0
  freed : ∀ p, ∀ a ∈ hist p, s.freed a = true → ((s.heap a).version : ℤ) < (s.queue p).minimum
  unallocated : ∀ a, s.nextAddr ≤ a → s.freed a = false

/-- The version a thread holds: above its whole history until the node is linked in, and the version
of its newest node otherwise. -/
structure Versions (hist : Fin n → List Addr) (s : State n) : Prop where
  le_counter : ∀ p, (s.updater p).currentVersion ≤ s.atomicCounter
  pos : ∀ p, s.InFlight p → 0 < (s.updater p).currentVersion
  pending : ∀ p, s.BeforeInsert p → ∀ a ∈ hist p, (s.heap a).version < (s.updater p).currentVersion
  settled : ∀ p, ¬ s.BeforeInsert p →
    (s.heap (s.singlyList p)).version = (s.updater p).currentVersion

/-- The active list names the threads between their critical sections, each with its version. -/
structure ActiveOk (s : State n) : Prop where
  mem_iff : ∀ i v, (⟨i, v⟩ : ActiveNode n) ∈ s.activeList ↔
    s.InFlight i ∧ v = (s.updater i).currentVersion
  nodup : (s.activeList.map ActiveNode.indexThread).Nodup

/-- What a capture relies on: the active list is right, and no thread has picked itself. -/
structure Tracked (s : State n) : Prop where
  active : ActiveOk s
  picked_ne : ∀ i, (s.updater i).pc = .enter ∨ s.InFlight i → (s.updater i).pickedThreadIndex ≠ i

/-- A version thread `p` has taken: its current one, or one it has linked in. -/
def Taken (hist : Fin n → List Addr) (s : State n) (p : Fin n) (v : ℤ) : Prop :=
  v = (s.updater p).currentVersion ∨ ∃ a ∈ hist p, ((s.heap a).version : ℤ) = v

/-- The queue of `p` holds `entries`, front first. -/
structure QueueOk (hist : Fin n → List Addr) (s : State n) (p : Fin n) (entries : List ℕ) : Prop where
  wellFormed : (s.queue p).WellFormed
  versions : (s.queue p).versions = entries.map toInt
  sorted : entries.Pairwise (· ≤ ·)
  taken : ∀ v ∈ entries, Taken hist s p v
  readers_le : ∀ v, (readers s p v).card ≤ entries.count v
  deleteFront_le : ∀ v ∈ entries, (s.queue p).deleteFront ≤ v
  deleteFront_taken : Taken hist s p (s.queue p).deleteFront
  minimum_lt : ∀ v ∈ entries, (s.queue p).minimum < v
  minimum_le : (s.queue p).minimum ≤ (s.queue p).deleteFront
  minimum_inserted : ∃ a ∈ hist p, ((s.heap a).version : ℤ) = (s.queue p).minimum
  minimum_lt_current : (s.queue p).minimum < (s.updater p).currentVersion ∨ (s.queue p).minimum = 0

/-- The collector on list `i` works from a threshold that was `minimum` at some time. Before its cut
it stands at a node with its predecessor behind it; after the cut all it passes is below the
threshold. -/
def CollectorOk (hist : Fin n → List Addr) (s : State n) : Prop :=
  let c := s.collector
  match c.pc with
  | .readHead i => c.back = none ∧ c.minimum ≤ (s.queue i).minimum
  | .visit i =>
    c.minimum ≤ (s.queue i).minimum ∧ ∀ a, c.tmp = some a → a ∈ hist i ∧
      (c.deleteFlag = true → ((s.heap a).version : ℤ) < c.minimum) ∧
      (c.deleteFlag = false → match c.back with
        | none => c.minimum ≤ (s.heap a).version
        | some b => Consecutive (hist i) b a)
  | .cut i =>
    c.minimum ≤ (s.queue i).minimum ∧ c.deleteFlag = true ∧
      ∃ a b, c.tmp = some a ∧ c.back = some b ∧ Consecutive (hist i) b a ∧
        ((s.heap a).version : ℤ) < c.minimum
  | .advance i =>
    c.minimum ≤ (s.queue i).minimum ∧ ∃ a, c.tmp = some a ∧ a ∈ hist i ∧
      (c.deleteFlag = true → ((s.heap a).version : ℤ) < c.minimum)
  | .free i =>
    c.minimum ≤ (s.queue i).minimum ∧ c.deleteFlag = true ∧
      (∃ b, c.back = some b ∧ b ∈ hist i ∧ ((s.heap b).version : ℤ) < c.minimum) ∧
      ∀ a, c.tmp = some a → a ∈ hist i ∧ ((s.heap a).version : ℤ) < c.minimum
  | _ => True

structure Inv (hist : Fin n → List Addr) (s : State n) : Prop where
  lists : Lists hist s
  versions : Versions hist s
  picked_ne : ∀ i, (s.updater i).pc = .enter ∨ s.InFlight i → (s.updater i).pickedThreadIndex ≠ i
  active : ActiveOk s
  queues : ∃ entries : Fin n → List ℕ, ∀ p, QueueOk hist s p (entries p)
  collector : CollectorOk hist s

/-! ### First consequences -/

section Consequences

variable {hist : Fin n → List Addr} {s : State n} {p : Fin n} {a b : Addr}

theorem Inv.tracked (h : Inv hist s) : Tracked s := ⟨h.active, h.picked_ne⟩

theorem Lists.head_mem (h : Lists hist s) (p : Fin n) : s.singlyList p ∈ hist p :=
  List.mem_of_mem_head? (h.head p)

theorem Lists.nodup (h : Lists hist s) (p : Fin n) : (hist p).Nodup :=
  (h.sorted p).imp fun hlt heq => absurd (heq ▸ hlt) (lt_irrefl _)

theorem Lists.eq_of_version_eq (h : Lists hist s) (ha : a ∈ hist p) (hb : b ∈ hist p)
    (heq : (s.heap a).version = (s.heap b).version) : a = b := by
  have hnodup : ((hist p).map fun x => (s.heap x).version).Nodup :=
    List.pairwise_map.mpr ((h.sorted p).imp fun hlt => hlt.ne')
  exact List.inj_on_of_nodup_map hnodup ha hb heq

theorem Lists.version_le_head (h : Lists hist s) (ha : a ∈ hist p) :
    (s.heap a).version ≤ (s.heap (s.singlyList p)).version := by
  have hhead := h.head p
  have hsorted := h.sorted p
  rcases hlist : hist p with _ | ⟨first, rest⟩
  · simp [hlist] at ha
  · rw [hlist] at ha hhead hsorted
    obtain rfl := Option.some.inj hhead
    rcases List.mem_cons.mp ha with rfl | ha
    · exact le_rfl
    · exact (List.rel_of_pairwise_cons hsorted ha).le

/-- A link never leads anywhere but to the next older node. -/
theorem Lists.consecutive_of_link (h : Lists hist s) (ha : a ∈ hist p)
    (hlink : (s.heap a).link = some b) : Consecutive (hist p) a b := by
  rcases last_or_consecutive ha with hlast | ⟨c, hc⟩
  · rw [(h.last p a hlast).1] at hlink
    cases hlink
  · rcases h.link p a c hc with hlink' | ⟨hlink', _⟩
    · rw [hlink'] at hlink
      exact Option.some.inj hlink ▸ hc
    · rw [hlink'] at hlink
      cases hlink

theorem Versions.le_current (h : Versions hist s) (hlists : Lists hist s) (ha : a ∈ hist p) :
    (s.heap a).version ≤ (s.updater p).currentVersion := by
  by_cases hbefore : s.BeforeInsert p
  · exact (h.pending p hbefore a ha).le
  · rw [← h.settled p hbefore]
    exact hlists.version_le_head ha

theorem Taken.le_current {v : ℤ} (h : Taken hist s p v) (hlists : Lists hist s)
    (hversions : Versions hist s) : v ≤ (s.updater p).currentVersion := by
  rcases h with rfl | ⟨a, ha, rfl⟩
  · exact le_rfl
  · exact_mod_cast hversions.le_current hlists ha

theorem Taken.inserted {v : ℤ} (h : Taken hist s p v) (hlt : v < (s.updater p).currentVersion) :
    ∃ a ∈ hist p, ((s.heap a).version : ℤ) = v := by
  rcases h with rfl | h
  · exact absurd hlt (lt_irrefl _)
  · exact h

theorem Inv.minimum_le_head (h : Inv hist s) (p : Fin n) :
    (s.queue p).minimum ≤ (s.heap (s.singlyList p)).version := by
  obtain ⟨entries, hqueues⟩ := h.queues
  obtain ⟨a, ha, heq⟩ := (hqueues p).minimum_inserted
  rw [← heq]
  exact_mod_cast h.lists.version_le_head ha

/-- The newest node of a list is never freed. -/
theorem Inv.head_not_freed (h : Inv hist s) (p : Fin n) : s.freed (s.singlyList p) = false := by
  by_contra hfreed
  have hlt := h.lists.freed p _ (h.lists.head_mem p) (by simpa using hfreed)
  exact absurd (h.minimum_le_head p) (not_le.mpr hlt)

end Consequences

end Multicore.Mvcc
