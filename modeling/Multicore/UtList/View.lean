import Multicore.UtList.Intact

/-!
# Prepends as part of a larger system

A program in which threads create locks does more than prepend. Where each of its steps either makes
one step of some prepend or leaves the list alone, what holds of every run of prepends holds of the
list in every run of the program.
-/

namespace Multicore.UtList

variable {α : Type*} [DecidableEq α] {s : State α} {e x : α}

/-- The event of the next step of a prepend. -/
def PrependPc.event (e : α) : PrependPc → Event α
  | .absent | .clearPrev => .clearPrev e
  | .exchange => .exchange e
  | .storeNext => .storeNext e
  | .storePrev => .storePrev e
  | .testEnd => .testEnd e
  | .storeEnd => .storeEnd e
  | .increment | .inserted => .increment e

theorem prependStep_step (habsent : s.prepend e ≠ .absent) (hinserted : s.prepend e ≠ .inserted) :
    Restrict Step (fun _ ev => ev.isPrepend = true) s ((s.prepend e).event e) (prependStep s e) := by
  cases hpc : s.prepend e with
  | absent => exact absurd hpc habsent
  | inserted => exact absurd hpc hinserted
  | _ => exact ⟨⟨hpc, rfl⟩, rfl⟩

/-- A step for an element without a call under way changes nothing. -/
theorem prependStep_of_settled (hpc : s.prepend e = .absent ∨ s.prepend e = .inserted) :
    prependStep s e = s := by
  unfold prependStep
  rcases hpc with hpc | hpc <;> rw [hpc]

theorem run_of_view {σ ε : Type*} {step : σ → ε → σ → Prop} {start final : σ} {trace : List ε}
    (list : σ → State α) (hrun : Run step start trace final)
    (hview : ∀ s ev s', step s ev s' → list s' = list s ∨ ∃ e, list s' = prependStep (list s) e) :
    ∃ trace', Run (Restrict Step fun _ ev => ev.isPrepend = true) (list start) trace' (list final) := by
  refine hrun.simulate _ list fun _ s ev s' _ hstep => ?_
  rcases hview s ev s' hstep with hsame | ⟨e, heq⟩
  · exact .inr hsame
  · by_cases hsettled : (list s).prepend e = .absent ∨ (list s).prepend e = .inserted
    · exact .inr (heq.trans (prependStep_of_settled hsettled))
    · rw [not_or] at hsettled
      exact .inl ⟨_, heq ▸ prependStep_step hsettled.1 hsettled.2⟩

/-! ### How far a call is from its end -/

def PrependPc.rank : PrependPc → ℕ
  | .absent => 8
  | .clearPrev => 7
  | .exchange => 6
  | .storeNext => 5
  | .storePrev => 4
  | .testEnd => 3
  | .storeEnd => 2
  | .increment => 1
  | .inserted => 0

theorem prependStep_of_ne (hne : x ≠ e) : (prependStep s e).prepend x = s.prepend x := by
  unfold prependStep
  cases s.prepend e with
  | storePrev => cases s.prependPrev e <;> simp [State.setPrepend, hne]
  | _ => simp [State.setPrepend, hne]

/-- Every step brings the call closer to its end; before its store to the old head there is one. -/
theorem rank_prependStep (habsent : s.prepend e ≠ .absent) (hinserted : s.prepend e ≠ .inserted)
    (hprev : s.prepend e = .storePrev → s.prependPrev e ≠ none) :
    ((prependStep s e).prepend e).rank < (s.prepend e).rank := by
  unfold prependStep
  cases hpc : s.prepend e with
  | absent => exact absurd hpc habsent
  | inserted => exact absurd hpc hinserted
  | storePrev =>
    cases hp : s.prependPrev e with
    | none => exact absurd hp (hprev hpc)
    | some p => simp [State.setPrepend, PrependPc.rank]
  | storeNext => dsimp only; split <;> simp [State.setPrepend, PrependPc.rank]
  | testEnd => dsimp only; split <;> simp [State.setPrepend, PrependPc.rank]
  | _ => simp [State.setPrepend, PrependPc.rank]

/-- No step takes a call back. -/
theorem rank_prependStep_le : ((prependStep s e).prepend x).rank ≤ (s.prepend x).rank := by
  by_cases hne : x = e
  · subst hne
    unfold prependStep
    cases hpc : s.prepend x with
    | storePrev => cases s.prependPrev x <;> simp [State.setPrepend, hpc, PrependPc.rank]
    | storeNext => dsimp only; split <;> simp [State.setPrepend, PrependPc.rank]
    | testEnd => dsimp only; split <;> simp [State.setPrepend, PrependPc.rank]
    | absent | inserted => simp [hpc]
    | _ => simp [State.setPrepend, PrependPc.rank]
  · rw [prependStep_of_ne hne]

theorem prependStep_settled (hx : s.prepend x = .absent ∨ s.prepend x = .inserted) :
    (prependStep s e).prepend x = s.prepend x := by
  by_cases hne : x = e
  · rw [prependStep_of_settled (hne ▸ hx)]
  · exact prependStep_of_ne hne

/-- A call that takes part goes on taking part. -/
theorem prependStep_ne_absent (hx : s.prepend x ≠ .absent) : (prependStep s e).prepend x ≠ .absent := by
  by_cases hne : x = e
  · subst hne
    unfold prependStep
    cases hpc : s.prepend x with
    | absent => exact absurd hpc hx
    | storePrev => cases s.prependPrev x <;> simp [State.setPrepend, hpc]
    | storeNext => dsimp only; split <;> simp [State.setPrepend]
    | testEnd => dsimp only; split <;> simp [State.setPrepend]
    | inserted => simp [hpc]
    | _ => simp [State.setPrepend]
  · rwa [prependStep_of_ne hne]

/-- The call for `e` takes part, and before its store to the old head there is one. -/
def Moves (s : State α) (e : α) : Prop :=
  s.prepend e ≠ .absent ∧ (s.prepend e = .storePrev → s.prependPrev e ≠ none)

theorem rank_lt_of_not_over (hmoves : Moves s e) (hover : (prependStep s e).prepend e ≠ .inserted) :
    ((prependStep s e).prepend e).rank < (s.prepend e).rank := by
  refine rank_prependStep hmoves.1 (fun hins => hover ?_) hmoves.2
  exact (prependStep_settled (.inr hins)).trans hins

end Multicore.UtList
