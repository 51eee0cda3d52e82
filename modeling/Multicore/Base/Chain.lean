import Mathlib.Data.List.Nodup
import Mathlib.Tactic.TypeStar

/-!
# Linked lists in memory

A list in memory is a pointer and, in each node, a pointer to the next one. `Segment` says which nodes
one meets on the way from one pointer to another; a list that ends with `NULL` is a segment to `none`.
The rules say how a segment is cut in two, that it depends on the links of its own nodes only, and what
writing the link of its last node does.
-/

namespace Multicore

variable {α : Type*}

/-- Following `link` from `p` visits `xs` and arrives at `q`. -/
@[simp] def Segment (link : α → Option α) : Option α → List α → Option α → Prop
  | p, [], q => p = q
  | p, x :: xs, q => p = some x ∧ Segment link (link x) xs q

/-- Following `link` from `p` visits `xs` and ends at `NULL`. -/
def Chain (link : α → Option α) (p : Option α) (xs : List α) : Prop := Segment link p xs none

variable {link link' : α → Option α} {p q r : Option α} {x : α} {xs ys : List α}

theorem segment_append :
    Segment link p (xs ++ ys) r ↔ ∃ q, Segment link p xs q ∧ Segment link q ys r := by
  induction xs generalizing p with
  | nil => simp
  | cons x xs ih => simp [ih, and_assoc]

theorem segment_concat :
    Segment link p (xs ++ [x]) q ↔ Segment link p xs (some x) ∧ link x = q := by
  simp [segment_append]

/-- A segment depends on the links of its own nodes. -/
theorem Segment.congr (h : Segment link p xs q) (hsame : ∀ x ∈ xs, link' x = link x) :
    Segment link' p xs q := by
  induction xs generalizing p with
  | nil => exact h
  | cons x xs ih =>
    refine ⟨h.1, ?_⟩
    rw [hsame x List.mem_cons_self]
    exact ih h.2 fun y hy => hsame y (List.mem_cons_of_mem x hy)

/-- Writing the link of its last node makes a segment lead elsewhere. -/
theorem Segment.relink (h : Segment link p (xs ++ [x]) q) (hsame : ∀ y ∈ xs, link' y = link y)
    (hx : link' x = r) : Segment link' p (xs ++ [x]) r :=
  segment_concat.mpr ⟨(segment_concat.mp h).1.congr hsame, hx⟩

/-- Past the node `a`, from the one before it. -/
theorem Chain.unlink {a b : α} (h : Chain link p (xs ++ b :: a :: ys))
    (hnodup : (xs ++ b :: a :: ys).Nodup) (hb : link' b = link a)
    (hsame : ∀ c, c ≠ b → link' c = link c) : Chain link' p (xs ++ b :: ys) := by
  have hnot := (List.nodup_cons.mp (List.nodup_middle.mp hnodup)).1
  rw [List.append_cons] at h
  obtain ⟨q, hfirst, hq, hrest⟩ := segment_append.mp h
  rw [List.append_cons]
  refine segment_append.mpr ⟨link a, hfirst.relink (fun c hc => hsame c ?_) hb, ?_⟩
  · exact fun heq => hnot (List.mem_append_left _ (heq ▸ hc))
  · refine hrest.congr fun c hc => hsame c fun heq => hnot ?_
    exact List.mem_append_right _ (List.mem_cons_of_mem a (heq ▸ hc))

/-- The node after the last one. -/
theorem Chain.extend {a b : α} (h : Chain link p (xs ++ [b]))
    (hb : link' b = some a) (hend : link' a = none) (hsame : ∀ c ∈ xs, link' c = link c) :
    Chain link' p (xs ++ [b] ++ [a]) :=
  segment_append.mpr ⟨some a, h.relink hsame hb, rfl, hend⟩

theorem Chain.eq_none_iff (h : Chain link p xs) : p = none ↔ xs = [] := by
  cases xs with
  | nil => simpa [Chain] using h
  | cons x xs => simp [h.1]

theorem Chain.mem_of_eq_some (h : Chain link p xs) (hp : p = some x) : x ∈ xs := by
  cases xs with
  | nil => exact absurd (hp.symm.trans h) (Option.some_ne_none x)
  | cons y xs =>
    rw [Option.some.inj (hp.symm.trans h.1)]
    exact List.mem_cons_self

end Multicore
