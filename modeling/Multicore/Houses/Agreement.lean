import Multicore.Houses.Answer
import Multicore.Houses.Records

/-!
# Whether the records of a call agree

A call that has found every house behind its start stores `least` and `most` next to the distances it
recorded one by one. The two agree when the start itself shows all these houses, or when none of them
is shown up to level one and one of them is not the first house shown beyond. In every other case a
recorded distance lies outside the range that was stored.
-/

namespace Multicore.Houses

variable {layout : Layout} {pruning : Bool} {start : Fin layout.houseNum} {u : Fin layout.verticeNum}
  {c : Search layout.houseNum (Fin layout.verticeNum)} {row : Fin layout.houseNum → ℕ}
  {s s₀ : State layout.houseNum (Fin layout.verticeNum)} {trace : List (Fin layout.houseNum)}

/-- The distances a call recorded lie between the results it stored. -/
def RecordsAgree {n : ℕ} {V : Type*} (s : State n V) (start : Fin n) : Prop :=
  ∀ j, start < j →
    s.distanceToAll start j ≤ s.distanceMost start ∧ s.distanceToAll start j ≤ s.iMax start ∧
      s.distanceLeast start ≤ s.distanceToAll start j

instance {n : ℕ} {V : Type*} (s : State n V) (start : Fin n) : Decidable (RecordsAgree s start) :=
  inferInstanceAs (Decidable (∀ _, _ → _))

/-- In breadth-first order from the start, a house that is not shown up to level one is shown before
the house of index `j`. -/
def Layout.Preceded (layout : Layout) (start j : Fin layout.houseNum) : Prop :=
  ∃ (d k : ℕ) (v x : Fin layout.verticeNum), (layout.reached start d)[k]? = some v ∧
    (layout.vertice v).house = some x ∧ ¬ layout.Shown start 1 x ∧
      ∀ l ≤ k, ∀ w, (layout.reached start d)[l]? = some w →
        (layout.vertice w).house ≠ some (layout.house j)

/-- The start itself shows every house behind it, or no vertex up to level one shows one of them and
one of them is not the first house shown beyond. -/
def Layout.Balanced (layout : Layout) (start : Fin layout.houseNum) : Prop :=
  (∀ j, start < j → layout.Shown start 0 (layout.house j)) ∨
    (∀ j, start < j → ¬ layout.Shown start 1 (layout.house j)) ∧
      ∃ j, start < j ∧ layout.Preceded start j

section Settled

variable (h : Settled layout start u c row) (hcount : c.countEnd = layout.houseNum)

include h hcount

theorem Settled.found {j : Fin layout.houseNum} (hj : start < j) :
    layout.house j ∈ {x | c.visitHouse x = true} :=
  (h.noted.all_found hcount hj).1

/-- A call that finds its last house at the start has found no house beyond level one. -/
theorem Settled.leastFlag_of_shown (hall : ∀ j, start < j → layout.Shown start 0 (layout.house j)) :
    c.leastFlag = true := by
  obtain ⟨j, hj, hslot, hunseen⟩ := h.last hcount
  have hzero : c.distance = 0 := by
    by_contra hpos
    obtain ⟨v, hv, hshows⟩ := hall j hj
    exact hunseen v (h.noted.ordered.mem_before (Nat.pos_of_ne_zero hpos) hv) hshows
  rw [h.kept.flag_iff, Set.eq_empty_iff_forall_notMem]
  rintro x ⟨hx, hfar⟩
  exact hfar ((h.kept.shown x hx).mono (by rw [hzero]; exact Nat.zero_le 1))

/-- Two houses beyond level one have been found: one of them before the last house. -/
theorem Settled.exists_preceded
    (htwo : ¬ (farFrom layout start {x | c.visitHouse x = true}).Subsingleton) :
    ∃ j, start < j ∧ layout.Preceded start j := by
  obtain ⟨j, hj, hslot, hunseen⟩ := h.last hcount
  refine ⟨j, hj, ?_⟩
  have hother : ∃ x ∈ farFrom layout start {x | c.visitHouse x = true}, x ≠ layout.house j := by
    by_contra hall
    push Not at hall
    exact htwo fun x hx y hy => (hall x hx).trans (hall y hy).symm
  obtain ⟨x, ⟨hx, hfar⟩, hne⟩ := hother
  obtain ⟨v, hv, hshows⟩ := (h.noted.found_iff x).1 hx
  -- the vertex under visit shows the last house, so `x` was shown before it
  have hbefore : v ∈ c.before c.i := by
    obtain rfl | hv := (mem_before_succ h.current).1 hv
    · rw [hslot] at hshows
      exact absurd (Option.some.inj hshows).symm hne
    · exact hv
  obtain ⟨k, hk, hget⟩ := hbefore
  have hextended := h.noted.ordered.array_extended
  refine ⟨c.distance + 1, k, v, x, getElem?_of_extended hextended hget, hshows, hfar, fun l hl w hw => ?_⟩
  have hlt := lt_length_of_getElem? hget
  rw [Layout.reached, getElem?_eq_of_extended hextended (by omega)] at hw
  exact hunseen w ⟨l, by omega, hw⟩

/-- A house beyond level one that is shown before one of those behind the start has been found too. -/
theorem Settled.two_of_preceded (hfar : ∀ j, start < j → ¬ layout.Shown start 1 (layout.house j))
    {j : Fin layout.houseNum} (hj : start < j) (hpreceded : layout.Preceded start j) :
    ¬ (farFrom layout start {x | c.visitHouse x = true}).Subsingleton := by
  obtain ⟨d, k, v, x, hv, hx, hxfar, hnot⟩ := hpreceded
  have hfound := h.found hcount hj
  obtain ⟨w, ⟨l, hl, hw⟩, hshows⟩ := (h.noted.found_iff _).1 hfound
  have harray : c.searchArray <+: layout.reached start (max d (c.distance + 1)) :=
    h.noted.ordered.array_extended.trans (breadthFirst_extended (le_max_right _ _))
  have hreached : layout.reached start d <+: layout.reached start (max d (c.distance + 1)) :=
    breadthFirst_extended (le_max_left _ _)
  -- the search array and the order up to level `d` begin the same list, so positions compare
  have hkl : k < l := by
    by_contra hle
    have hlt := lt_length_of_getElem? hv
    refine hnot l (not_lt.1 hle) w ?_ hshows
    rw [← getElem?_eq_of_extended hreached (by omega)]
    exact getElem?_of_extended harray hw
  have hbefore : v ∈ c.before (c.i + 1) := by
    have hlt := lt_length_of_getElem? hw
    refine ⟨k, by omega, ?_⟩
    rw [← getElem?_eq_of_extended harray (by omega)]
    exact getElem?_of_extended hreached hv
  have hne : x ≠ layout.house j := by
    rintro rfl
    exact hnot k le_rfl v hv hx
  intro hsub
  exact hne (hsub ⟨(h.noted.found_iff x).2 ⟨v, hbefore, hx⟩, hxfar⟩ ⟨hfound, hfar j hj⟩)

/-- The levels that the call recorded lie between its extremes just if the layout is balanced. -/
theorem Settled.balanced_iff (hstart : IsStart layout start) :
    (∀ j, start < j → ∀ d, layout.FirstShown start (layout.house j) d → d ≤ c.most ∧ c.least ≤ d) ↔
      layout.Balanced start := by
  have hnext : start < ⟨start.val + 1, hstart⟩ := Nat.lt_succ_self start.val
  have hcomplete := h.complete hcount
  cases hflag : c.leastFlag with
  | true =>
    -- no house beyond level one was found, so both results are one
    obtain ⟨hleast, hmost⟩ := h.kept.near hflag
    rw [hleast, hmost]
    constructor
    · intro hall
      refine .inl fun j hj => ?_
      obtain ⟨d, hd, -⟩ := hcomplete j hj
      exact hd.1.mono (hall j hj d hd).1
    · rintro (hall | ⟨hfar, -⟩)
      · exact fun j hj d hd => ⟨hd.2 (hall j hj), Nat.zero_le d⟩
      · have hempty := h.kept.flag_iff.1 hflag
        exact absurd ⟨h.found hcount hnext, hfar _ hnext⟩ (Set.eq_empty_iff_forall_notMem.1 hempty _)
  | false =>
    have hge := h.kept.least_ge hflag
    constructor
    · intro hall
      have hfar : ∀ j, start < j → ¬ layout.Shown start 1 (layout.house j) := by
        intro j hj hshown
        obtain ⟨d, hd, -⟩ := hcomplete j hj
        have hle := hd.2 hshown
        have hbound := (hall j hj d hd).2
        omega
      -- a single house beyond level one would have left `most` at zero
      refine .inr ⟨hfar, h.exists_preceded hcount fun hsub => ?_⟩
      obtain ⟨hzero, -⟩ | ⟨htwo, -⟩ := h.kept.most
      · obtain ⟨d, hd, -⟩ := hcomplete _ hnext
        have hbound := hall _ hnext d hd
        omega
      · exact htwo hsub
    · rintro (hall | ⟨hfar, j, hj, hpreceded⟩)
      · exact absurd (hflag.symm.trans (h.leastFlag_of_shown hcount hall)) Bool.noConfusion
      · have htwo := h.two_of_preceded hcount hfar hj hpreceded
        obtain ⟨-, hsub⟩ | ⟨-, hmost⟩ := h.kept.most
        · exact absurd hsub htwo
        · intro k hk d hd
          exact ⟨hd.2 (hmost _ (h.found hcount hk)),
            h.kept.least_le hflag _ ⟨h.found hcount hk, hfar k hk⟩ d hd.1⟩

end Settled

/-- The call for the first of three houses in a row, up to its last step. -/
def firstOfThree : List (Fin sevenInRow.houseNum) := List.replicate 13 sevenInRow.firstHouse

/-- The call for the first of two houses, three roads apart, up to its last step. -/
def firstOfTwo : List (Fin fourInRow.houseNum) := List.replicate 6 fourInRow.firstHouse

end Multicore.Houses
