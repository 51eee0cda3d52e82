import Multicore.Mvcc.Mirror
import Multicore.Mvcc.Pass
import Multicore.Mvcc.Readers

/-!
# Whose nodes a cursor stands on

Links lead from a node to another node of the same thread, whatever the collector cuts off. So a cursor
that starts at the head of a list stays among the nodes which the owner of the list linked in. The
queues play no part: they decide which nodes are freed, not whose they are.
-/

namespace Multicore.Mvcc

variable {n : ℕ} {hist : Fin n → List Addr} {s s' : State n} {e : Event n} {x : Addr}

structure Owned (hist : Fin n → List Addr) (s : State n) : Prop where
  head : ∀ p, (hist p).head? = some (s.singlyList p)
  fresh : ∀ p, ∀ x ∈ hist p, x < s.nextAddr
  link : ∀ p, ∀ x ∈ hist p, ∀ y, (s.heap x).link = some y → y ∈ hist p
  cursor : ∀ r, (s.updater r).pc.holdsCursor = true → ∀ x, (s.updater r).cursorSinglyNode = some x →
    x ∈ hist (s.updater r).pickedThreadIndex

theorem Owned.head_mem (h : Owned hist s) (p : Fin n) : s.singlyList p ∈ hist p :=
  List.mem_of_mem_head? (h.head p)

theorem InList.mem_of_owned {p : Fin n} (hx : InList s p x) (h : Owned hist s) : x ∈ hist p := by
  induction hx with
  | refl => exact h.head_mem p
  | tail _ hlink ih => exact h.link p _ ih _ hlink

/-! ### The memory -/

theorem link_collectStep (s : State n) (x : Addr) :
    ((collectStep s).heap x).link = (s.heap x).link ∨ ((collectStep s).heap x).link = none := by
  cases hpc : s.collector.pc with
  | cut i =>
    cases hback : s.collector.back with
    | none =>
      left
      simp only [collectStep, hpc, hback]
    | some b =>
      rw [collectStep_cut hpc hback, cutBelow_link]
      split
      · exact .inr rfl
      · exact .inl rfl
  | visit i =>
    left
    simp only [collectStep, hpc]
    split <;> [skip; split] <;> rfl
  | free i =>
    left
    simp only [collectStep, hpc]
    split <;> rfl
  | _ =>
    left
    simp only [collectStep, hpc, State.setCollector]

theorem Owned.head_step (h : Owned hist s) (e : Event n) (p : Fin n) :
    (record hist s e p).head? = some ((effect s e).singlyList p) := by
  by_cases hinsert : ∃ i, e = .insert i
  · obtain ⟨i, rfl⟩ := hinsert
    change (extend hist i s.nextAddr p).head? = some ((linkedIn s i).singlyList p)
    by_cases hp : p = i
    · subst hp
      rw [extend_self, linkedIn_singlyList_self, List.head?_cons]
    · rw [extend_of_ne hp, linkedIn_singlyList_of_ne hp, h.head p]
  · push Not at hinsert
    rw [record_of_ne hinsert, singlyList_effect hinsert, h.head p]

theorem Owned.fresh_step (h : Owned hist s) (p : Fin n) (hx : x ∈ record hist s e p) :
    x < (effect s e).nextAddr := by
  rw [nextAddr_effect]
  rcases mem_record.mp hx with ⟨rfl, rfl⟩ | hx
  · exact Nat.lt_succ_self _
  · exact (h.fresh p x hx).trans_le (Nat.le_add_right _ _)

theorem Owned.link_step (h : Owned hist s) (p : Fin n) (hx : x ∈ record hist s e p) {y : Addr}
    (hlink : ((effect s e).heap x).link = some y) : y ∈ record hist s e p := by
  rcases memory_cases hist s e with rfl | ⟨j, rfl⟩ | ⟨-, hsame, hheap, -, -⟩
  · rcases link_collectStep s x with heq | heq <;> rw [effect, heq] at hlink
    · exact h.link p x hx y hlink
    · cases hlink
  · refine mem_record.mpr (.inr ?_)
    rcases mem_record.mp hx with ⟨heq, rfl⟩ | hx
    · cases heq
      rw [show (effect s (.insert p)).heap s.nextAddr = _ from linkedIn_heap_new] at hlink
      obtain rfl := Option.some.inj hlink
      exact h.head_mem p
    · rw [show (effect s (.insert j)).heap x = _ from linkedIn_heap_of_lt (h.fresh p x hx)] at hlink
      exact h.link p x hx y hlink
  · rw [hsame] at hx ⊢
    rw [hheap] at hlink
    exact h.link p x hx y hlink

/-! ### The cursors -/

theorem Owned.cursor_search (h : Owned hist s) {r : Fin n} (hpc : (s.updater r).pc = .search)
    (hcursor : ((searchStep s r).updater r).cursorSinglyNode = some x) :
    x ∈ hist ((searchStep s r).updater r).pickedThreadIndex := by
  have hold := h.cursor r (by rw [hpc]; rfl)
  cases hat : (s.updater r).cursorSinglyNode with
  | none =>
    rw [searchStep_none hat] at hcursor ⊢
    exact hold x hcursor
  | some y =>
    by_cases hlt : (s.heap y).version < (s.updater r).activeThreadVersion
    · rw [searchStep_stop hat hlt, setUpdater_updater_self] at hcursor ⊢
      exact hold x hcursor
    · rw [searchStep_follow hat hlt, setUpdater_updater_self] at hcursor ⊢
      exact h.link _ y (hold y hat) x hcursor

theorem Owned.cursor_step (h : Owned hist s) (hstep : Step s e s') (r : Fin n)
    (hholds : (s'.updater r).pc.holdsCursor = true)
    (hcursor : (s'.updater r).cursorSinglyNode = some x) :
    x ∈ record hist s e (s'.updater r).pickedThreadIndex := by
  by_cases hself : e.thread = some r
  · rcases holdsCursor_step hstep hself hholds with rfl | rfl | rfl | ⟨y, rfl⟩ <;>
      obtain ⟨henabled, rfl⟩ := hstep
    · simp only [effect, setUpdater_updater_self] at hcursor ⊢
      obtain rfl := Option.some.inj hcursor
      exact h.head_mem _
    · simp only [effect, setUpdater_updater_self] at hcursor ⊢
      exact h.cursor r (by rw [show (s.updater r).pc = _ from henabled]; rfl) x hcursor
    · exact h.cursor_search henabled.1 hcursor
    · simp only [effect, setUpdater_updater_self] at hcursor ⊢
      exact h.cursor r (by rw [henabled.1]; rfl) x hcursor
  · rw [hstep.2, updater_effect_of_ne hself] at hholds hcursor ⊢
    exact mem_record.mpr (.inr (h.cursor r hholds x hcursor))

theorem Owned.step (h : Owned hist s) (hstep : Step s e s') : Owned (record hist s e) s' where
  head p := by
    rw [hstep.2]
    exact h.head_step e p
  fresh p x hx := by
    rw [hstep.2]
    exact h.fresh_step p hx
  link p x hx y hlink := by
    rw [hstep.2] at hlink
    exact h.link_step p hx hlink
  cursor r hholds x := h.cursor_step hstep r hholds

theorem history_of_run {minimum deleteFront : Fin n → ℤ} {a b : Fin n → BitVec 32}
    {trace : List (Event n)} (e : Event n)
    (hrun : Run Step (initialWith minimum deleteFront a b) trace s) :
    history (e :: trace) = record (history trace) s e :=
  history_cons e (nextAddr_of_start rfl hrun)

theorem owned_of_run {minimum deleteFront : Fin n → ℤ} {a b : Fin n → BitVec 32}
    {trace : List (Event n)} (hrun : Run Step (initialWith minimum deleteFront a b) trace s) :
    Owned (history trace) s := by
  induction hrun with
  | nil =>
    refine ⟨fun p => rfl, fun p x hx => ?_, fun p x hx y hlink => ?_, fun r hholds => by cases hholds⟩
    · rw [List.mem_singleton.mp hx]
      exact p.isLt
    · have hheap : (initialWith minimum deleteFront a b).heap x = ⟨a p, b p, 0, none⟩ := by
        rw [List.mem_singleton.mp hx]
        exact initial_heap a b p
      rw [hheap] at hlink
      cases hlink
  | cons hrun hstep ih =>
    rw [history_of_run _ hrun]
    exact ih.step hstep

end Multicore.Mvcc
