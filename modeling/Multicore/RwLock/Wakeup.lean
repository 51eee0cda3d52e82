import Multicore.RwLock.Exclusion
import Multicore.RwLock.Waiters

/-!
# No wake-up of the lock is lost

`Attended` is the invariant of all threads together: the counters and the flag of a priority lock are
those of the threads that have announced themselves, and whoever awaits an event that has not been set
since is served by some thread (`Attended.served`). A step keeps it, as `Proceeds` and `Guarded` say of
the steps of one thread. A thread that serves may sleep itself, but only for an event that is served
before, so some thread is always awake (`Attended.exists_active`).
-/

namespace Multicore.RwLock

variable {n : ℕ} {prio : Bool} {rounds : ℕ} {i : Fin n} {s s' : State n} {e : Event n} {w : Signal}

/-- The event has not been set since the thread has reset it. -/
def Unsignalled (l : PrioRwLock n) (t : Thread n) (w : Signal) : Prop :=
  (l.eventOf w).signalCount = t.signalCount

structure Attended (prio : Bool) (s : State n) : Prop where
  guarded : Guarded s
  pos : ∀ w, 0 < (s.lock.eventOf w).signalCount
  ranks : ∀ i, Ranks prio (s.thread i)
  recorded : ∀ i w, (s.thread i).registered = some w →
    (s.lock.eventOf w).Recorded (s.thread i).signalCount
  countedS : s.lock.highPrioritySWaiters = count Thread.countedS s.thread
  countedX : s.lock.highPriorityXWaiters = count Thread.countedX s.thread
  flag : s.lock.highPriorityWaitExWaiter = true → ∃ i, (s.thread i).flags = true
  /-- Whoever has announced itself is still announced, or the signal is about to come. -/
  noticed : ∀ i, (s.thread i).registered = some .all → (s.thread i).pc ≠ .announce →
    Unsignalled s.lock (s.thread i) .all → s.lock.waiters = true ∨ ∃ j, (s.thread j).pc = .signal
  /-- Whoever has been refused is served by somebody. -/
  served : ∀ i w, (s.thread i).awaits = some w → Unsignalled s.lock (s.thread i) w →
    ∃ j, (s.thread j).serves prio w

theorem attended_initial : Attended prio (initial n) where
  guarded := guarded_initial
  pos w := by cases w <;> exact Nat.one_pos
  ranks _ := ⟨fun h => absurd h Bool.false_ne_true, fun _ => rfl, by simp [initial], fun _ => rfl⟩
  recorded i w h := by simp [initial, Thread.registered, Pc.registered, Pc.tries] at h
  countedS := (count_eq_zero_iff.mpr fun _ => rfl).symm
  countedX := (count_eq_zero_iff.mpr fun _ => rfl).symm
  flag h := absurd h Bool.false_ne_true
  noticed i h := by simp [initial, Thread.registered, Pc.registered, Pc.tries] at h
  served i w h := by simp [initial, Thread.awaits, Pc.awaits] at h

/-! ### Who is there -/

namespace Guarded

theorem exists_owner (h : Guarded s) (hn : (n : ℤ) < xLockDecr) (hword : s.lock.lockWord ≤ 0) :
    ∃ k, 0 < (s.thread k).xHeld := by
  rcases h.word_cases with ⟨-, hword'⟩ | ⟨k, hx, -⟩
  · have hle : s.readers ≤ n := count_le_card.trans_eq (Fintype.card_fin n)
    omega
  · exact ⟨k, hx⟩

/-- A next writer that finds the lock word below 0 waits for a reader. -/
theorem exists_reader (h : Guarded s) (hx : (s.thread i).xHeld = 1) (hword : s.lock.lockWord ≠ 0) :
    ∃ k, (s.thread k).sHeld = true := by
  rcases h.word_cases with ⟨hnone, -⟩ | ⟨k, hk, -, ⟨-, hword'⟩ | ⟨hreaders, -⟩⟩
  · simp [hnone i] at hx
  · rw [h.unique k i hk (by omega), hx, weight] at hword'
    omega
  · exact count_pos_iff.mp hreaders

theorem exists_holder (h : Guarded s) (hword : s.lock.lockWord ≠ xLockDecr) :
    ∃ k, 0 < (s.thread k).xHeld ∨ (s.thread k).sHeld = true := by
  rcases h.word_cases with ⟨-, hword'⟩ | ⟨k, hk, -⟩
  · obtain ⟨k, hk⟩ := count_pos_iff.mp (show 0 < s.readers by omega)
    exact ⟨k, .inr hk⟩
  · exact ⟨k, .inl hk⟩

end Guarded

namespace Attended

variable {l' : PrioRwLock n} {t' : Thread n}

theorem serves_of_countedS (h : Attended prio s) {k : Fin n} (hk : (s.thread k).countedS = true) :
    (s.thread k).serves prio .all := by
  simp only [Thread.countedS, Bool.and_eq_true] at hk
  exact (serves_of_counted (h.guarded.knows k) (h.ranks k) (by simp [hk.1])).1

theorem serves_of_countedX (h : Attended prio s) {k : Fin n} (hk : (s.thread k).countedX = true) :
    (s.thread k).serves prio .all ∧ (s.thread k).serves prio .highS := by
  simp only [Thread.countedX, Bool.and_eq_true] at hk
  have hserves := serves_of_counted (h.guarded.knows k) (h.ranks k) (by simp [hk.1])
  exact ⟨hserves.1, hserves.2 hk.2⟩

/-- A next writer that has set its flag holds an exclusive lock. -/
theorem xHeld_of_flags (h : Attended prio s) {k : Fin n} (hk : (s.thread k).flags = true) :
    (s.thread k).high = true ∧ (s.thread k).xHeld = 1 := by
  have hknows := h.guarded.knows k
  simp only [Thread.flags, Bool.and_eq_true] at hk
  refine ⟨hk.1, ?_⟩
  cases hpc : (s.thread k).pc <;> simp only [Pc.flags, hpc, Bool.false_eq_true, and_false] at hk <;>
    simpa only [Knows, hpc] using hknows

/-- Whoever is refused is served by another thread. -/
theorem other_serves (h : Attended prio s) (hn : (n : ℤ) < xLockDecr)
    (hrefusal : Refusal s.lock (s.thread i) w) : ∃ k, k ≠ i ∧ (s.thread k).serves prio w := by
  -- The lock has an owner, which is another thread.
  have howner : s.lock.lockWord ≤ 0 ∧ (s.thread i).xHeld = 0 → ∃ k, k ≠ i ∧ 0 < (s.thread k).xHeld := by
    rintro ⟨hword, hx⟩
    obtain ⟨k, hk⟩ := h.guarded.exists_owner hn hword
    exact ⟨k, fun heq => by simp [heq, hx] at hk, hk⟩
  cases w with
  | waitEx =>
    obtain ⟨hword, hx⟩ := hrefusal
    obtain ⟨k, hk⟩ := h.guarded.exists_reader hx hword.ne
    refine ⟨k, fun heq => ?_, .inl hk⟩
    simp [heq, h.guarded.apart i (by omega)] at hk
  | all =>
    rcases hrefusal with htaken | ⟨hlow, hflag | hS | hX⟩
    · obtain ⟨k, hne, hk⟩ := howner htaken
      exact ⟨k, hne, .inl (.inl hk)⟩
    · obtain ⟨k, hk⟩ := h.flag hflag
      obtain ⟨hhigh, hx⟩ := h.xHeld_of_flags hk
      exact ⟨k, fun heq => by simp [heq, hlow] at hhigh, .inl (.inl (by omega))⟩
    · obtain ⟨k, hk⟩ := count_pos_iff.mp (h.countedS ▸ hS)
      refine ⟨k, fun heq => ?_, h.serves_of_countedS hk⟩
      simp [heq, Thread.countedS, hlow] at hk
    · obtain ⟨k, hk⟩ := count_pos_iff.mp (h.countedX ▸ hX)
      refine ⟨k, fun heq => ?_, (h.serves_of_countedX hk).1⟩
      simp [heq, Thread.countedX, hlow] at hk
  | highS | highX =>
    obtain ⟨k, hne, hk⟩ := howner hrefusal
    exact ⟨k, hne, .inl hk⟩

/-- Where a thread gives up serving, another one is in charge. -/
theorem relieved (h : Attended prio s) (hmoves : Moves i s.lock (s.thread i) l' t') {j : Fin n}
    (hawaits : (s.thread j).awaits = some w) (hnot : Unsignalled s.lock (s.thread j) w)
    (hrelief : Relief prio s.lock (s.thread i) l' w) :
    ∃ k, (Function.update s.thread i t' k).serves prio w := by
  have hguarded := h.guarded.moves hmoves
  have hother : ∀ k, k ≠ i → (s.thread k).serves prio w →
      ∃ k, (Function.update s.thread i t' k).serves prio w :=
    fun k hne hk => ⟨k, by rwa [Function.update_of_ne hne]⟩
  -- The thread counted as a waiter is not the one that looks for waiters.
  have hcountedS : 0 < s.lock.highPrioritySWaiters → (s.thread i).countedS = false →
      ∃ k, k ≠ i ∧ (s.thread k).countedS = true := by
    intro hS hi
    obtain ⟨k, hk⟩ := count_pos_iff.mp (h.countedS ▸ hS)
    exact ⟨k, fun heq => by simp [heq, hi] at hk, hk⟩
  have hcountedX : 0 < s.lock.highPriorityXWaiters → (s.thread i).countedX = false →
      ∃ k, k ≠ i ∧ (s.thread k).countedX = true := by
    intro hX hi
    obtain ⟨k, hk⟩ := count_pos_iff.mp (h.countedX ▸ hX)
    exact ⟨k, fun heq => by simp [heq, hi] at hk, hk⟩
  cases w with
  | all =>
    rcases hrelief with ⟨hpc, hX⟩ | ⟨hpc, hS⟩ | ⟨hpc, hnone⟩ | ⟨hpc, hprio, hword⟩
    · obtain ⟨k, hne, hk⟩ := hcountedX hX (by simp [Thread.countedX, hpc, Pc.counted, Pc.tries, Pc.takes])
      exact hother k hne (h.serves_of_countedX hk).1
    · obtain ⟨k, hne, hk⟩ := hcountedS hS (by simp [Thread.countedS, hpc, Pc.counted, Pc.tries, Pc.takes])
      exact hother k hne (h.serves_of_countedS hk)
    · obtain ⟨hregistered, hannounce⟩ := Thread.registered_of_awaits hawaits
      rcases h.noticed j hregistered hannounce hnot with hwaiters | ⟨k, hk⟩
      · simp [hnone] at hwaiters
      · exact hother k (fun heq => by simp [heq, hpc] at hk) (.inr (.inl (by simp [hk, Pc.signals])))
    · obtain ⟨k, hk⟩ := hguarded.exists_holder hword
      exact ⟨k, .inl (hk.imp_right fun hs => ⟨hprio, hs⟩)⟩
  | highS =>
    have hcounted := Thread.countedS_of_awaits hawaits
    rcases hrelief with ⟨hpc, hX⟩ | ⟨hpc, hzero⟩ | hprio
    · obtain ⟨k, hne, hk⟩ := hcountedX hX (by simp [Thread.countedX, hpc, Pc.counted, Pc.tries, Pc.takes])
      exact hother k hne (h.serves_of_countedX hk).2
    · rw [h.countedS, count_eq_zero_iff] at hzero
      simp [hzero j] at hcounted
    · simp only [Thread.countedS, Bool.and_eq_true] at hcounted
      exact absurd ((h.ranks j).prio hcounted.1.1) (by simp [hprio])
  | highX =>
    have hcounted := Thread.countedX_of_awaits hawaits
    rcases hrelief with ⟨hpc, hzero⟩ | hprio
    · rw [h.countedX, count_eq_zero_iff] at hzero
      simp [hzero j] at hcounted
    · simp only [Thread.countedX, Bool.and_eq_true] at hcounted
      exact absurd ((h.ranks j).prio hcounted.1.1) (by simp [hprio])
  | waitEx =>
    obtain ⟨hpc, hword⟩ := hrelief
    -- The next writer is not the thread that releases a shared lock.
    have hj : (s.thread j).xHeld = 1 ∧ j ≠ i := by
      have hknows := h.guarded.knows j
      rcases Thread.awaits_cases hawaits with ⟨-, hpcj | hpcj⟩ | ⟨hcell, -⟩
      · exact ⟨by simpa only [Knows, hpcj] using hknows, fun heq => by simp [heq, hpc] at hpcj⟩
      · exact ⟨by simpa only [Knows, hpcj] using hknows, fun heq => by simp [heq, hpc] at hpcj⟩
      · exact absurd hcell.symm Thread.cell_ne_waitEx
    have hx : (({ s with lock := l' }.setThread i t').thread j).xHeld = 1 := by
      simpa [State.setThread, hj.2] using hj.1
    obtain ⟨k, hk⟩ := hguarded.exists_reader hx hword
    exact ⟨k, .inl hk⟩

/-- A registered thread without a signal had none before, whatever happens to the event. -/
theorem unsignalled (h : Attended prio s) (hevents : ∀ w, (s.lock.eventOf w).Follows (l'.eventOf w))
    {j : Fin n} (hregistered : (s.thread j).registered = some w)
    (hnot : Unsignalled l' (s.thread j) w) : Unsignalled s.lock (s.thread j) w :=
  (h.recorded j w hregistered).eq_of_follows (hevents w) hnot

/-- A signal reaches every thread that has registered for it. -/
theorem not_unsignalled_of_set (h : Attended prio s) {j : Fin n}
    (hregistered : (s.thread j).registered = some w)
    (hset : l'.eventOf w = (s.lock.eventOf w).set) : ¬ Unsignalled l' (s.thread j) w := by
  have hlt := (h.recorded j w hregistered).lt_set
  rw [Unsignalled, hset]
  omega

/-! ### One thread proceeds -/

section Proceeds

variable (h : Attended prio s) (hp : Proceeds prio s.lock (s.thread i) l' t')
include h hp

theorem noticed_proceeds (j : Fin n)
    (hregistered : (Function.update s.thread i t' j).registered = some .all)
    (hpc : (Function.update s.thread i t' j).pc ≠ .announce)
    (hnot : Unsignalled l' (Function.update s.thread i t' j) .all) :
    l'.waiters = true ∨ ∃ k, (Function.update s.thread i t' k).pc = .signal := by
  -- A thread that was announced before keeps its record, so the old fact applies to it.
  have hold : (s.thread j).registered = some .all → (s.thread j).pc ≠ .announce →
      Unsignalled l' (s.thread j) .all →
      l'.waiters = true ∨ ∃ k, (Function.update s.thread i t' k).pc = .signal := by
    intro hregistered hpc hnot
    rcases h.noticed j hregistered hpc (h.unsignalled hp.events hregistered hnot) with hwaiters | hsignal
    · rcases hp.waiters hwaiters with hwaiters' | hsignal'
      · exact .inl hwaiters'
      · exact .inr ⟨i, by simpa using hsignal'⟩
    · refine .inr (exists_update (fun t : Thread n => t.pc = .signal) hsignal fun hi => ?_)
      exact absurd hnot (h.not_unsignalled_of_set hregistered (hp.signal hi))
  by_cases heq : j = i
  · subst heq
    rw [Function.update_self] at hregistered hpc hnot
    rcases hp.noticed hregistered hpc with ⟨hregistered', hpc', hcount⟩ | hwaiters
    · exact hold hregistered' hpc' (by rwa [Unsignalled, ← hcount])
    · exact .inl hwaiters
  · rw [Function.update_of_ne heq] at hregistered hpc hnot
    exact hold hregistered hpc hnot

theorem served_still (hmoves : Moves i s.lock (s.thread i) l' t') {j : Fin n}
    (hawaits : (s.thread j).awaits = some w) (hnot : Unsignalled l' (s.thread j) w) :
    ∃ k, (Function.update s.thread i t' k).serves prio w := by
  have hregistered := (Thread.registered_of_awaits hawaits).1
  have hnot' := h.unsignalled hp.events hregistered hnot
  obtain ⟨k, hk⟩ := h.served j w hawaits hnot'
  by_cases heq : k = i
  · subst heq
    rcases hp.serves w hk with hserves | hset | hrelief
    · exact ⟨k, by rwa [Function.update_self]⟩
    · exact absurd hnot (h.not_unsignalled_of_set hregistered hset)
    · exact h.relieved hmoves hawaits hnot' hrelief
  · exact ⟨k, by rwa [Function.update_of_ne heq]⟩

theorem served_proceeds (hn : (n : ℤ) < xLockDecr) (hmoves : Moves i s.lock (s.thread i) l' t')
    (j : Fin n) (w : Signal) (hawaits : (Function.update s.thread i t' j).awaits = some w)
    (hnot : Unsignalled l' (Function.update s.thread i t' j) w) :
    ∃ k, (Function.update s.thread i t' k).serves prio w := by
  by_cases heq : j = i
  · subst heq
    rw [Function.update_self] at hawaits hnot
    rcases hp.awaits w hawaits with ⟨hawaits', hcount⟩ | hrefusal
    · exact h.served_still hp hmoves hawaits' (by rwa [Unsignalled, ← hcount])
    · obtain ⟨k, hne, hk⟩ := h.other_serves hn hrefusal
      exact ⟨k, by rwa [Function.update_of_ne hne]⟩
  · rw [Function.update_of_ne heq] at hawaits hnot
    exact h.served_still hp hmoves hawaits hnot

theorem flag_proceeds (hflag : l'.highPriorityWaitExWaiter = true) :
    ∃ k, (Function.update s.thread i t' k).flags = true := by
  rcases hp.flag hflag with ⟨hold, hkeeps⟩ | hself
  · exact exists_update (fun t : Thread n => t.flags = true) (h.flag hold) hkeeps
  · exact ⟨i, by rwa [Function.update_self]⟩

theorem proceeds (hn : (n : ℤ) < xLockDecr) (hmoves : Moves i s.lock (s.thread i) l' t') :
    Attended prio ({ s with lock := l' }.setThread i t') where
  guarded := h.guarded.moves hmoves
  pos w := (h.pos w).trans_le (hp.events w).signalCount_le
  ranks := (Function.forall_update_iff s.thread fun _ t => Ranks prio t).mpr
    ⟨hp.ranks, fun j _ => h.ranks j⟩
  recorded := (Function.forall_update_iff s.thread fun _ t =>
      ∀ w, t.registered = some w → (l'.eventOf w).Recorded t.signalCount).mpr
    ⟨hp.recorded, fun j _ w hregistered => (h.recorded j w hregistered).follows (hp.events w)⟩
  countedS := by
    have hcount := count_update (p := Thread.countedS) (f := s.thread) i t'
    have hcounted := hp.countedS
    have hold := h.countedS
    simp only [State.setThread]
    omega
  countedX := by
    have hcount := count_update (p := Thread.countedX) (f := s.thread) i t'
    have hcounted := hp.countedX
    have hold := h.countedX
    simp only [State.setThread]
    omega
  flag := h.flag_proceeds hp
  noticed := h.noticed_proceeds hp
  served := h.served_proceeds hp hn hmoves

end Proceeds

/-! ### A lock is handed over, or an event is set -/

theorem wake (h : Attended prio s) (which : Signal) :
    Attended prio (effect prio rounds s (.wake which)) := by
  have hevents : ∀ w, (s.lock.eventOf w).Follows ((s.lock.onEvent which OsEvent.set).eventOf w) := by
    intro w
    cases w <;> cases which <;> simp [PrioRwLock.eventOf, PrioRwLock.onEvent, OsEvent.Follows]
  have hstep : Step prio rounds s (.wake which) (effect prio rounds s (.wake which)) := ⟨trivial, rfl⟩
  refine ⟨h.guarded.step hstep, fun w => ?_, h.ranks, fun j w hregistered => ?_, ?_, ?_, ?_,
    fun j hregistered hpc hnot => ?_, fun j w hawaits hnot => ?_⟩
  · exact (h.pos w).trans_le (hevents w).signalCount_le
  · exact (h.recorded j w hregistered).follows (hevents w)
  · cases which <;> exact h.countedS
  · cases which <;> exact h.countedX
  · cases which <;> exact h.flag
  · have hold := h.noticed j hregistered hpc (h.unsignalled hevents hregistered hnot)
    cases which <;> exact hold
  · exact h.served j w hawaits (h.unsignalled hevents (Thread.registered_of_awaits hawaits).1 hnot)

/-- Threads outside the functions may exchange what they hold, as long as somebody serves. -/
theorem exchange (h : Attended prio s) (hguarded : Guarded s') (hlock : s'.lock = s.lock)
    (hsame : ∀ k, s'.thread k = s.thread k ∨ ((s.thread k).pc = .idle ∧ (s'.thread k).pc = .idle ∧
      (s'.thread k).high = (s.thread k).high ∧ (s'.thread k).site = (s.thread k).site))
    (hserves : ∀ w, (∃ k, (s.thread k).serves prio w) → ∃ k, (s'.thread k).serves prio w) :
    Attended prio s' := by
  have hidle : ∀ t : Thread n, t.pc = .idle → t.registered = none ∧ t.awaits = none ∧
      t.countedS = false ∧ t.countedX = false ∧ t.flags = false := fun t hidle => by
    simp [Thread.registered, Thread.awaits, Thread.countedS, Thread.countedX, Thread.flags, hidle,
      Pc.registered, Pc.awaits, Pc.counted, Pc.flags, Pc.tries, Pc.takes]
  have hequal : ∀ p : Thread n → Bool, (∀ t : Thread n, t.pc = .idle → p t = false) →
      ∀ k, p (s.thread k) = p (s'.thread k) := fun p hp k => by
    rcases hsame k with heq | ⟨hpc, hpc', -⟩
    · rw [heq]
    · rw [hp _ hpc, hp _ hpc']
  refine ⟨hguarded, hlock ▸ h.pos, fun k => ?_, fun k w hregistered => ?_, ?_, ?_, fun hflag => ?_,
    fun k hregistered hpc hnot => ?_, fun k w hawaits hnot => ?_⟩
  · rcases hsame k with heq | ⟨-, hpc, hhigh, hsite⟩
    · exact heq ▸ h.ranks k
    · refine ranks_of_outside (by simp [hpc, Pc.outside, Pc.requests, Pc.tries, Pc.takes]) (hhigh ▸ (h.ranks k).prio) ?_
      rw [hhigh, hsite]
      exact (h.ranks k).site
  · rcases hsame k with heq | ⟨-, hpc, -⟩
    · rw [heq] at hregistered ⊢
      exact hlock ▸ h.recorded k w hregistered
    · simp [(hidle _ hpc).1] at hregistered
  · rw [hlock, h.countedS]
    exact count_congr (hequal _ fun t hpc => (hidle t hpc).2.2.1)
  · rw [hlock, h.countedX]
    exact count_congr (hequal _ fun t hpc => (hidle t hpc).2.2.2.1)
  · obtain ⟨k, hk⟩ := h.flag (hlock ▸ hflag)
    exact ⟨k, (hequal _ (fun t hpc => (hidle t hpc).2.2.2.2) k).symm.trans hk⟩
  · rcases hsame k with heq | ⟨-, hpc', -⟩
    · rw [heq] at hregistered hpc hnot
      rw [hlock] at hnot ⊢
      rcases h.noticed k hregistered hpc hnot with hwaiters | ⟨m, hm⟩
      · exact .inl hwaiters
      · refine .inr ⟨m, ?_⟩
        rcases hsame m with heq | ⟨hpc', -⟩
        · exact heq ▸ hm
        · simp [hpc'] at hm
    · simp [(hidle _ hpc').1] at hregistered
  · rcases hsame k with heq | ⟨-, hpc, -⟩
    · rw [heq] at hawaits hnot
      exact hserves w (h.served k w hawaits (hlock ▸ hnot))
    · simp [(hidle _ hpc).2.1] at hawaits

/-- What a thread outside the functions is in charge of follows from what it holds. -/
theorem holdsFor_of_idle {t : Thread n} (hidle : t.pc = .idle) (h : t.serves prio w) :
    t.holdsFor prio w := by
  rcases h with h | h | ⟨h, -⟩
  · exact h
  · cases w <;> simp [hidle, Pc.signals] at h
  · simp [hidle, Pc.requests, Pc.tries] at h

theorem hands_over {a b : Thread n} {j : Fin n} (h : Attended prio s)
    (hguarded : Guarded ((s.setThread i a).setThread j b)) (hidle : (s.thread i).pc = .idle)
    (hfree : (s.thread j).Free)
    (ha : a.pc = .idle ∧ a.high = (s.thread i).high ∧ a.site = (s.thread i).site)
    (hb : b.pc = .idle ∧ b.high = (s.thread j).high ∧ b.site = (s.thread j).site)
    (hholds : ∀ w, (s.thread i).holdsFor prio w → b.holdsFor prio w) :
    Attended prio ((s.setThread i a).setThread j b) := by
  obtain ⟨hidle', hs, hx⟩ := hfree
  refine h.exchange hguarded rfl (fun k => ?_) fun w => ?_
  · simp only [State.setThread, Function.update_apply]
    split_ifs with hkj hki
    · exact .inr ⟨hkj ▸ hidle', hkj ▸ hb⟩
    · exact .inr ⟨hki ▸ hidle, hki ▸ ha⟩
    · exact .inl rfl
  · rintro ⟨k, hk⟩
    by_cases hki : k = i
    · subst hki
      exact ⟨j, .inl (by simpa [State.setThread] using hholds w (holdsFor_of_idle hidle hk))⟩
    · by_cases hkj : k = j
      · subst hkj
        have hnone := holdsFor_of_idle hidle' hk
        cases w <;> simp [Thread.holdsFor, hs, hx] at hnone
      · exact ⟨k, by simpa [State.setThread, hki, hkj] using hk⟩

theorem step (hn : (n : ℤ) < xLockDecr) (h : Attended prio s) (hstep : Step prio rounds s e s') :
    Attended prio s' := by
  have hguarded := h.guarded.step hstep
  obtain ⟨henabled, rfl⟩ := hstep
  cases e with
  | call i c =>
    exact h.proceeds (proceeds_call henabled.1 henabled.2 (h.ranks i)) hn
      (moves_call (h.guarded.view i) henabled.1 henabled.2)
  | step i =>
    refine h.proceeds (proceeds_next (h.guarded.view i) (h.guarded.knows i) (h.ranks i) h.pos
      (h.recorded i) (fun hcounted => ?_) fun hcounted => ?_) hn
      (moves_next (h.guarded.view i) (h.guarded.knows i))
    · rw [h.countedS]
      exact count_pos_iff.mpr ⟨i, hcounted⟩
    · rw [h.countedX]
      exact count_pos_iff.mpr ⟨i, hcounted⟩
  | passShared i j =>
    obtain ⟨hidle, hs, hfree⟩ := henabled
    have hx : (s.thread i).xHeld = 0 := by
      by_contra hx
      simp [h.guarded.apart i (Nat.pos_of_ne_zero hx)] at hs
    refine h.hands_over hguarded hidle hfree ⟨hidle, rfl, rfl⟩ ⟨hfree.1, rfl, rfl⟩ fun w hw => ?_
    cases w <;> simp_all [Thread.holdsFor]
  | passExclusive i j =>
    obtain ⟨hidle, hx, -, hfree⟩ := henabled
    have hs : (s.thread i).sHeld = false := h.guarded.apart i (by omega)
    refine h.hands_over hguarded hidle hfree ⟨hidle, rfl, rfl⟩ ⟨hfree.1, rfl, rfl⟩ fun w hw => ?_
    cases w <;> simp_all [Thread.holdsFor]
  | wake which => exact h.wake which

end Attended

theorem attended_of_run (hn : (n : ℤ) < xLockDecr) {trace : List (Event n)}
    (hrun : Run (Step prio rounds) (initial n) trace s) : Attended prio s :=
  hrun.invariant (P := fun _ s => Attended prio s) attended_initial
    fun _ _ _ _ _ h hstep => h.step hn hstep

/-! ### Nobody sleeps alone -/

/-- A sleeping thread awaits an event that has not been set for it. -/
theorem Attended.awaits_of_blocked (h : Attended prio s) (hblocked : Blocked s i) :
    ∃ w, (s.thread i).awaits = some w ∧ Unsignalled s.lock (s.thread i) w := by
  have hnot : ∀ w, (s.thread i).registered = some w →
      ¬ (s.lock.eventOf w).Passes (s.thread i).signalCount → Unsignalled s.lock (s.thread i) w := by
    intro w hregistered hpasses
    have hrecorded := h.recorded i w hregistered
    have hle := hrecorded.le
    rw [hrecorded.passes_iff] at hpasses
    rw [Unsignalled]
    omega
  rcases hblocked with ⟨hpc, hpasses⟩ | ⟨hpc, hpasses⟩
  · exact ⟨.waitEx, by simp [Thread.awaits, hpc, Pc.awaits],
      hnot _ (by simp [Thread.registered, hpc, Pc.registered]) hpasses⟩
  · exact ⟨(s.thread i).cell, by simp [Thread.awaits, hpc, Pc.awaits],
      hnot _ (by simp [Thread.registered, hpc, Pc.registered]) hpasses⟩

/-- The order in which those who sleep are served. -/
def Signal.rank : Signal → ℕ
  | .waitEx => 0
  | .highX => 1
  | .highS => 2
  | .all => 3

/-- Whoever serves and sleeps itself is served before. -/
theorem Attended.rank_lt (h : Attended prio s) (hblocked : Blocked s i)
    (hserves : (s.thread i).serves prio w) :
    ∃ w', (s.thread i).awaits = some w' ∧ Unsignalled s.lock (s.thread i) w' ∧ w'.rank < w.rank := by
  obtain ⟨w', hawaits, hnot⟩ := h.awaits_of_blocked hblocked
  refine ⟨w', hawaits, hnot, ?_⟩
  have hknows := h.guarded.knows i
  rcases hblocked with ⟨hpc, -⟩ | ⟨hpc, -⟩
  · -- The next writer holds no shared lock.
    simp only [Knows, hpc] at hknows
    have hs := h.guarded.apart i (by omega)
    obtain rfl : Signal.waitEx = w' := by simpa [Thread.awaits, hpc, Pc.awaits] using hawaits
    cases w
    case waitEx => simp [Thread.serves, Thread.holdsFor, Thread.goesBefore, hs, hpc, Pc.signals] at hserves
    all_goals simp [Signal.rank]
  · -- A thread that waits for the lock holds nothing, so its request is what serves.
    simp only [Knows, hpc] at hknows
    obtain ⟨-, hs, hx⟩ := hknows
    obtain rfl : (s.thread i).cell = w' := by simpa [Thread.awaits, hpc, Pc.awaits] using hawaits
    have hbefore : (s.thread i).goesBefore w = true := by
      rcases hserves with hholds | hsignals | ⟨-, hbefore⟩
      · cases w <;> simp [Thread.holdsFor, hs, hx] at hholds
      · cases w <;> simp [hpc, Pc.signals] at hsignals
      · exact hbefore
    cases w <;> simp only [Thread.goesBefore, Bool.and_eq_true, Bool.false_eq_true] at hbefore
    case all =>
      unfold Thread.cell
      split_ifs <;> simp [Signal.rank]
    case highS => simp [Thread.cell, hbefore, Signal.rank]

/-- The thread is awake, and inside the functions or holding a lock. -/
def Active (s : State n) (i : Fin n) : Prop :=
  ¬ Blocked s i ∧ ((s.thread i).pc ≠ .idle ∨ (s.thread i).sHeld = true ∨ 0 < (s.thread i).xHeld)

theorem active_of_serves (hserves : (s.thread i).serves prio w) (hblocked : ¬ Blocked s i) :
    Active s i := by
  refine ⟨hblocked, ?_⟩
  by_cases hidle : (s.thread i).pc = .idle
  · have hholds := Attended.holdsFor_of_idle hidle hserves
    cases w
    case all => exact .inr (hholds.elim .inr fun h => .inl h.2)
    case waitEx => exact .inr (.inl hholds)
    all_goals exact .inr (.inr hholds)
  · exact .inl hidle

/-- From one who serves to one who is awake, by the order in which those who sleep are served. -/
theorem Attended.exists_active (h : Attended prio s) (w : Signal)
    (hserves : ∃ k, (s.thread k).serves prio w) : ∃ k, Active s k := by
  induction hrank : w.rank using Nat.strong_induction_on generalizing w with
  | _ r ih =>
    obtain ⟨k, hk⟩ := hserves
    by_cases hblocked : Blocked s k
    · obtain ⟨w', hawaits, hnot, hlt⟩ := h.rank_lt hblocked hk
      exact ih _ (hrank ▸ hlt) w' (h.served k w' hawaits hnot) rfl
    · exact ⟨k, active_of_serves hk hblocked⟩

/-- While a thread sleeps on an event of the lock, some thread is in charge of signalling that event:
it holds a lock, or is on the way from its release to the signal, or wants the lock with a higher
priority. Some thread inside the functions, or holding a lock, is awake; so it cannot come to pass that
all threads that want the lock sleep. -/
theorem sleepers_are_served (hn : (n : ℤ) < xLockDecr) (trace : List (Event n)) (s : State n)
    (hrun : Run (Step prio rounds) (initial n) trace s) (i : Fin n) (hblocked : Blocked s i) :
    (∃ w j, (s.thread i).awaits = some w ∧ (s.thread j).serves prio w) ∧
      ∃ j, Active s j := by
  have h := attended_of_run hn hrun
  obtain ⟨w, hawaits, hnot⟩ := h.awaits_of_blocked hblocked
  have hserved := h.served i w hawaits hnot
  obtain ⟨j, hj⟩ := hserved
  exact ⟨⟨w, j, hawaits, hj⟩, h.exists_active w ⟨j, hj⟩⟩

/-- The first thread has an exclusive lock, the second one waits for it without priority and the third
one with high priority. -/
def twoSleepers : List (Event 3) :=
  .call 0 (.xLock false false) :: List.replicate 11 (.step 0) ++
    .call 1 (.xLock false false) :: List.replicate 16 (.step 1) ++
      .call 2 (.sLock true) :: List.replicate 7 (.step 2)

theorem sleepers_are_served_twoSleepers :
    let s := execute (effect true 0) (initial 3) twoSleepers
    (Blocked s 1 ∧ Blocked s 2) ∧ ∃ j, Active s j := by
  intro s
  have hall : AllEnabled (Enabled true) (effect true 0) (initial 3) twoSleepers := by decide
  have hblocked : Blocked s 1 ∧ Blocked s 2 := by decide
  exact ⟨hblocked, (sleepers_are_served (by decide) twoSleepers.reverse s (run_execute hall) 1
    hblocked.1).2⟩

end Multicore.RwLock
