import Mathlib.Order.WellFounded
import Multicore.Base.Run

/-!
# What an endless run leads to

A run that never ends is a sequence of states; in each moment one event happens, or nothing does. A
scheduler may put a thread off for any finite time, so what such a run is sure to reach can only be
said under fairness: an event whose turn it is, and stays, happens at some time.

The rules below are the ones of leads-to reasoning: a fair step gets from `P` to `Q` if nothing but `Q`
takes `P` away (`ensures`), a measure that a fair step lowers and no other raises runs out
(`ensures_rank`, `LeadsTo.of_rank`), and what stays true until `B` can be carried along (`LeadsTo.carry`).
-/

namespace Multicore

variable {σ ε : Type*}

/-- An endless run: at time `k` the event `event k` happens, if there is one. -/
structure Endless (step : σ → ε → σ → Prop) (start : σ) where
  state : ℕ → σ
  event : ℕ → Option ε
  state_zero : state 0 = start
  rests : ∀ k, event k = none → state (k + 1) = state k
  moves : ∀ k e, event k = some e → step (state k) e (state (k + 1))

theorem execute_append (effect : σ → ε → σ) (s : σ) (schedule later : List ε) :
    execute effect s (schedule ++ later) = execute effect (execute effect s schedule) later := by
  induction schedule generalizing s with
  | nil => rfl
  | cons e schedule ih => exact ih (effect s e)

theorem allEnabled_append {enabled : σ → ε → Prop} {effect : σ → ε → σ} {s : σ}
    {schedule later : List ε} : AllEnabled enabled effect s (schedule ++ later) ↔
      AllEnabled enabled effect s schedule ∧
        AllEnabled enabled effect (execute effect s schedule) later := by
  induction schedule generalizing s with
  | nil => simp [AllEnabled, execute]
  | cons e schedule ih => simp [AllEnabled, execute, ih, and_assoc]

namespace Endless

variable {step : σ → ε → σ → Prop} {start : σ} (run : Endless step start)

/-- Whenever `P` holds, `Q` holds then or at some later time. -/
def LeadsTo (P Q : σ → Prop) : Prop := ∀ k, P (run.state k) → ∃ m, k ≤ m ∧ Q (run.state m)

/-- The events `turn` are not put off forever while `ready` holds. -/
def Fair (ready : σ → Prop) (turn : ε → Prop) : Prop :=
  ∀ k, (∀ m, k ≤ m → ready (run.state m)) → ∃ m e, k ≤ m ∧ run.event m = some e ∧ turn e

/-- The run that follows a schedule, in a system whose events may always happen. -/
def follow (effect : σ → ε → σ) (start : σ) (schedule : ℕ → ε) :
    Endless (Fires (fun _ _ => True) effect) start where
  state k := Nat.rec start (fun k s => effect s (schedule k)) k
  event k := some (schedule k)
  state_zero := rfl
  rests _ hevent := absurd hevent (Option.some_ne_none _)
  moves _ _ hevent := ⟨trivial, by rw [← Option.some.inj hevent]⟩

/-- The run that carries out a schedule and then rests. -/
def thenRest {enabled : σ → ε → Prop} {effect : σ → ε → σ} {start : σ} {schedule : List ε}
    (hall : AllEnabled enabled effect start schedule) : Endless (Fires enabled effect) start where
  state k := execute effect start (schedule.take k)
  event k := schedule[k]?
  state_zero := by rw [List.take_zero, execute]
  rests k hevent := by rw [List.take_add_one, hevent, Option.toList_none, List.append_nil]
  moves k e hevent := by
    have hlt : k < schedule.length := (List.getElem?_eq_some_iff.mp hevent).1
    rw [List.take_add_one, hevent, Option.toList_some, execute_append]
    refine ⟨?_, rfl⟩
    rw [← List.take_append_drop k schedule, allEnabled_append, List.drop_eq_getElem_cons hlt,
      (List.getElem?_eq_some_iff.mp hevent).2] at hall
    exact hall.2.1

/-- A run that rests in a state where nobody is ready is fair. -/
theorem fair_thenRest {enabled : σ → ε → Prop} {effect : σ → ε → σ} {start : σ} {schedule : List ε}
    (hall : AllEnabled enabled effect start schedule) {ready : σ → Prop} {turn : ε → Prop}
    (hquiet : ¬ ready (execute effect start schedule)) : (thenRest hall).Fair ready turn := by
  intro k hready
  refine absurd (hready (max k schedule.length) (Nat.le_max_left _ _)) ?_
  change ¬ ready (execute effect start (schedule.take _))
  rwa [List.take_of_length_le (Nat.le_max_right _ _)]

/-- Each state of an endless run is reached by a run. -/
theorem exists_run (k : ℕ) : ∃ trace, Run step start trace (run.state k) := by
  induction k with
  | zero =>
    rw [run.state_zero]
    exact ⟨[], .nil⟩
  | succ k ih =>
    obtain ⟨trace, hrun⟩ := ih
    cases hevent : run.event k with
    | none =>
      rw [run.rests k hevent]
      exact ⟨trace, hrun⟩
    | some e => exact ⟨e :: trace, .cons hrun (run.moves k e hevent)⟩

theorem invariant {P : σ → Prop} (hstart : P start) (hkeep : ∀ s e s', P s → step s e s' → P s')
    (k : ℕ) : P (run.state k) := by
  obtain ⟨trace, hrun⟩ := run.exists_run k
  exact hrun.invariant (P := fun _ s => P s) hstart fun _ s e s' _ hP hstep => hkeep s e s' hP hstep

/-- What only `B` can end holds until `B` does. -/
theorem holds_until {P B : σ → Prop} (hkeep : ∀ s e s', P s → step s e s' → P s' ∨ B s')
    {k : ℕ} (hP : P (run.state k)) {m : ℕ} (hle : k ≤ m) :
    P (run.state m) ∨ ∃ l, k ≤ l ∧ l ≤ m ∧ B (run.state l) := by
  induction m, hle using Nat.le_induction with
  | base => exact .inl hP
  | succ m hle ih =>
    rcases ih with hold | ⟨l, hkl, hlm, hB⟩
    · cases hevent : run.event m with
      | none =>
        rw [run.rests m hevent]
        exact .inl hold
      | some e =>
        rcases hkeep _ _ _ hold (run.moves m e hevent) with hnew | hB
        · exact .inl hnew
        · exact .inr ⟨m + 1, by omega, le_rfl, hB⟩
    · exact .inr ⟨l, hkl, by omega, hB⟩

/-! ### Leads-to -/

section LeadsTo

variable {run} {P P' Q R B : σ → Prop}

theorem LeadsTo.of_imp (himp : ∀ s, P s → Q s) : run.LeadsTo P Q :=
  fun k hP => ⟨k, le_rfl, himp _ hP⟩

theorem LeadsTo.trans (hPQ : run.LeadsTo P Q) (hQR : run.LeadsTo Q R) : run.LeadsTo P R := by
  intro k hP
  obtain ⟨l, hkl, hQ⟩ := hPQ k hP
  obtain ⟨m, hlm, hR⟩ := hQR l hQ
  exact ⟨m, hkl.trans hlm, hR⟩

theorem LeadsTo.or (hP : run.LeadsTo P Q) (hP' : run.LeadsTo P' Q) :
    run.LeadsTo (fun s => P s ∨ P' s) Q := by
  rintro k (h | h)
  · exact hP k h
  · exact hP' k h

/-- What only `B` can end is carried along to where `P` leads, unless `B` comes first. -/
theorem LeadsTo.carry (hPQ : run.LeadsTo P Q)
    (hkeep : ∀ s e s', R s → step s e s' → R s' ∨ B s') :
    run.LeadsTo (fun s => P s ∧ R s) fun s => (Q s ∧ R s) ∨ B s := by
  rintro k ⟨hP, hR⟩
  obtain ⟨m, hkm, hQ⟩ := hPQ k hP
  rcases run.holds_until hkeep hR hkm with hR' | ⟨l, hkl, -, hB⟩
  · exact ⟨m, hkm, .inl ⟨hQ, hR'⟩⟩
  · exact ⟨l, hkl, .inr hB⟩

/-- If from every value of a well-founded measure the run gets to `Q` or to a smaller value, it gets
to `Q`. -/
theorem LeadsTo.of_rank {α : Type*} [Preorder α] [WellFoundedLT α] (rank : σ → α)
    (hlower : ∀ a, run.LeadsTo (fun s => P s ∧ rank s = a) fun s => (P s ∧ rank s < a) ∨ Q s) :
    run.LeadsTo P Q := by
  have hgo : ∀ a k, P (run.state k) → rank (run.state k) = a →
      ∃ m, k ≤ m ∧ Q (run.state m) := by
    intro a
    induction a using WellFoundedLT.induction with
    | ind a ih =>
      intro k hP hrank
      obtain ⟨l, hkl, ⟨hP', hlt⟩ | hQ⟩ := hlower a k ⟨hP, hrank⟩
      · obtain ⟨m, hlm, hQ⟩ := ih _ hlt l hP' rfl
        exact ⟨m, hkl.trans hlm, hQ⟩
      · exact ⟨l, hkl, hQ⟩
  exact fun k hP => hgo _ k hP rfl

end LeadsTo

/-! ### Fair steps -/

section Ensures

variable {run} {ready : σ → Prop} {turn : ε → Prop} {P Q : σ → Prop}

/-- If `P` is ended by `Q` only, makes the events `turn` ready, and each of them gives `Q`, then `P`
leads to `Q`. -/
theorem ensures (hfair : run.Fair ready turn) (hready : ∀ s, P s → ready s)
    (hkeep : ∀ s e s', P s → step s e s' → P s' ∨ Q s')
    (hhelp : ∀ s e s', P s → step s e s' → turn e → Q s') : run.LeadsTo P Q := by
  intro k hP
  by_contra! hnever
  have hstays : ∀ m, k ≤ m → P (run.state m) := fun m hkm => by
    rcases run.holds_until hkeep hP hkm with hm | ⟨l, hkl, -, hQ⟩
    · exact hm
    · exact absurd hQ (hnever l hkl)
  obtain ⟨m, e, hkm, hevent, hturn⟩ := hfair k fun m hkm => hready _ (hstays m hkm)
  exact hnever (m + 1) (by omega) (hhelp _ _ _ (hstays m hkm) (run.moves m e hevent) hturn)

/-- If, short of `Q`, the events `turn` lower a measure and the other events do not raise it, then `P`
leads to `Q`. -/
theorem ensures_rank (rank : σ → ℕ) (hfair : run.Fair ready turn) (hready : ∀ s, P s → ready s)
    (hturn : ∀ s e s', P s → step s e s' → turn e → (P s' ∧ rank s' < rank s) ∨ Q s')
    (hother : ∀ s e s', P s → step s e s' → ¬ turn e → (P s' ∧ rank s' ≤ rank s) ∨ Q s') :
    run.LeadsTo P Q := by
  refine LeadsTo.of_rank rank fun a => ?_
  refine ensures hfair (fun s h => hready s h.1) ?_ ?_
  · rintro s e s' ⟨hP, rfl⟩ hstep
    by_cases he : turn e
    · exact .inr (hturn s e s' hP hstep he)
    · rcases hother s e s' hP hstep he with ⟨hP', hle⟩ | hQ
      · rcases hle.lt_or_eq with hlt | heq
        · exact .inr (.inl ⟨hP', hlt⟩)
        · exact .inl ⟨hP', heq⟩
      · exact .inr (.inr hQ)
  · rintro s e s' ⟨hP, rfl⟩ hstep he
    exact hturn s e s' hP hstep he

end Ensures

end Endless

end Multicore
