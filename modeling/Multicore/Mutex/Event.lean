import Mathlib.Data.Nat.Basic
import Mathlib.Tactic.TypeStar

/-!
# Operating system events

`os_event_create`, `os_event_set`, `os_event_reset` and `os_event_wait_low` of `os0sync.cc`. An event
keeps a flag and counts how often it was signalled. A thread that is going to wait resets the event
first and takes the count along; a signal between the reset and the wait changes the count, so the wait
ends even if a third thread has reset the flag again in the meantime.

Each of these functions holds the mutex of the event, so a call is one step. The count is 63 bits wide
in the code and unbounded here.
-/

namespace Multicore

structure OsEvent where
  isSet : Bool
  signalCount : ℕ
  deriving DecidableEq, Repr

namespace OsEvent

/-- `init_count_and_set`: the count starts at 1, as 0 stands for no count in `os_event_wait_low`. -/
def create : OsEvent := ⟨false, 1⟩

/-- `os_event_set` -/
def set (e : OsEvent) : OsEvent := if e.isSet then e else ⟨true, e.signalCount + 1⟩

/-- `os_event_reset`; what it returns is `signalCount`. -/
def reset (e : OsEvent) : OsEvent := { e with isSet := false }

/-- The count `os_event_wait_low` waits on. -/
def waitCount (e : OsEvent) (resetSigCount : ℕ) : ℕ :=
  if resetSigCount = 0 then e.signalCount else resetSigCount

/-- The waiting loop of `os_event_wait_low` ends. -/
def Passes (e : OsEvent) (resetSigCount : ℕ) : Prop :=
  e.isSet = true ∨ e.signalCount ≠ resetSigCount

instance (e : OsEvent) (resetSigCount : ℕ) : Decidable (e.Passes resetSigCount) :=
  inferInstanceAs (Decidable (_ ∨ _))

/-- Some thread has reset the event when the count was `c`: a signal since then shows in the count. -/
structure Recorded (e : OsEvent) (c : ℕ) : Prop where
  pos : 0 < c
  le : c ≤ e.signalCount
  lt : e.isSet = true → c < e.signalCount

variable {e : OsEvent} {c : ℕ}

@[simp] theorem reset_signalCount : e.reset.signalCount = e.signalCount := rfl

theorem recorded_reset (hpos : 0 < e.signalCount) : e.reset.Recorded e.signalCount :=
  ⟨hpos, le_rfl, fun h => absurd h Bool.false_ne_true⟩

theorem Recorded.reset (h : e.Recorded c) : e.reset.Recorded c :=
  ⟨h.pos, h.le, fun hset => absurd hset Bool.false_ne_true⟩

/-- A signal reaches everybody who has reset the event before. -/
theorem Recorded.lt_set (h : e.Recorded c) : c < e.set.signalCount := by
  unfold OsEvent.set
  split
  · exact h.lt ‹_›
  · exact Nat.lt_succ_of_le h.le

theorem Recorded.set (h : e.Recorded c) : e.set.Recorded c :=
  ⟨h.pos, Nat.le_of_lt h.lt_set, fun _ => h.lt_set⟩

theorem Recorded.passes_iff (h : e.Recorded c) : e.Passes c ↔ c < e.signalCount := by
  have hle := h.le
  constructor
  · rintro (hset | hne)
    · exact h.lt hset
    · omega
  · intro hlt
    exact .inr (by omega)

/-- What a call may turn an event into. -/
def Follows (e e' : OsEvent) : Prop := e' = e ∨ e' = e.reset ∨ e' = e.set

theorem Follows.signalCount_le {e' : OsEvent} (hfollows : e.Follows e') :
    e.signalCount ≤ e'.signalCount := by
  rcases hfollows with rfl | rfl | rfl
  · exact le_rfl
  · exact le_rfl
  · unfold OsEvent.set
    split
    · exact le_rfl
    · exact Nat.le_succ _

theorem Recorded.follows {e' : OsEvent} (h : e.Recorded c) (hfollows : e.Follows e') :
    e'.Recorded c := by
  rcases hfollows with rfl | rfl | rfl
  · exact h
  · exact h.reset
  · exact h.set

/-- Who has not been signalled now was not signalled before. -/
theorem Recorded.eq_of_follows {e' : OsEvent} (h : e.Recorded c) (hfollows : e.Follows e')
    (heq : e'.signalCount = c) : e.signalCount = c :=
  Nat.le_antisymm (heq ▸ hfollows.signalCount_le) h.le

theorem Recorded.waitCount (h : e.Recorded c) : e.waitCount c = c := if_neg (by have := h.pos; omega)

end OsEvent

end Multicore
