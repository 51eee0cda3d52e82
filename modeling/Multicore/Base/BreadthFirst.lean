import Multicore.Base.Graph
import Multicore.Base.Index

/-!
# Breadth-first order

`breadthFirst next src d` lists the vertices up to level `d` of a breadth-first search in the order in
which the search meets them: the source, then the neighbours of what is listed up to the level before,
each at its first occurrence. A search that closes its vertices in the order it has met them runs
through these lists, whatever it does at each vertex.
-/

namespace Multicore

variable {V : Type*} {next : V → List V} {src u v : V} {d e : ℕ} {l l' : List V}

theorem flatMap_extended (next : V → List V) (h : l <+: l') : l.flatMap next <+: l'.flatMap next := by
  obtain ⟨rest, rfl⟩ := h
  rw [List.flatMap_append]
  exact List.prefix_append _ _

variable [DecidableEq V]

theorem eraseDups_concat_of_mem (hv : v ∈ l) : (l ++ [v]).eraseDups = l.eraseDups := by
  rw [List.eraseDups_append]
  simp [List.removeAll, hv]

theorem eraseDups_concat_of_notMem (hv : v ∉ l) : (l ++ [v]).eraseDups = l.eraseDups ++ [v] := by
  rw [List.eraseDups_append]
  simp [List.removeAll, hv, List.eraseDups_cons]

theorem eraseDups_extended (h : l <+: l') : l.eraseDups <+: l'.eraseDups := by
  obtain ⟨rest, rfl⟩ := h
  rw [List.eraseDups_append]
  exact List.prefix_append _ _

theorem nodup_eraseDups (l : List V) : l.eraseDups.Nodup := by
  induction l using List.reverseRecOn with
  | nil => exact List.nodup_nil
  | append_singleton l v ih =>
    by_cases hv : v ∈ l
    · rwa [eraseDups_concat_of_mem hv]
    · rw [eraseDups_concat_of_notMem hv, ← List.concat_eq_append]
      exact ih.concat fun hmem => hv (List.mem_eraseDups.1 hmem)

/-- The vertices up to level `d`, in breadth-first order. -/
def breadthFirst (next : V → List V) (src : V) : ℕ → List V
  | 0 => [src]
  | d + 1 => (src :: (breadthFirst next src d).flatMap next).eraseDups

theorem breadthFirst_succ :
    breadthFirst next src (d + 1) = (src :: (breadthFirst next src d).flatMap next).eraseDups := rfl

theorem mem_breadthFirst_succ :
    v ∈ breadthFirst next src (d + 1) ↔ v = src ∨ ∃ u ∈ breadthFirst next src d, v ∈ next u := by
  rw [breadthFirst_succ, List.mem_eraseDups, List.mem_cons, List.mem_flatMap]

theorem breadthFirst_extended (hle : d ≤ e) : breadthFirst next src d <+: breadthFirst next src e := by
  have hstep : ∀ d, breadthFirst next src d <+: breadthFirst next src (d + 1) := by
    intro d
    induction d with
    | zero =>
      rw [breadthFirst_succ, List.eraseDups_cons]
      exact List.prefix_append [src] _
    | succ d ih =>
      obtain ⟨rest, hrest⟩ := flatMap_extended next ih
      rw [breadthFirst_succ, breadthFirst_succ, ← hrest]
      exact eraseDups_extended (List.prefix_append (src :: _) rest)
  induction hle with
  | refl => exact List.prefix_refl _
  | step _ ih => exact ih.trans (hstep _)

theorem mem_breadthFirst_of_le (hle : d ≤ e) (hv : v ∈ breadthFirst next src d) :
    v ∈ breadthFirst next src e :=
  (breadthFirst_extended hle).subset hv

/-- A level that adds nothing is the last one. -/
theorem breadthFirst_of_stable (hstable : breadthFirst next src (d + 1) = breadthFirst next src d)
    (hle : d ≤ e) : breadthFirst next src e = breadthFirst next src d := by
  induction hle with
  | refl => rfl
  | step _ ih => rw [breadthFirst_succ, ih, ← breadthFirst_succ, hstable]

theorem nodup_breadthFirst : (breadthFirst next src d).Nodup := by
  cases d with
  | zero => exact List.nodup_singleton src
  | succ d => exact nodup_eraseDups _

/-! ### Levels and distances -/

section Distance

variable {G : SimpleGraph V} (hadj : ∀ u v, v ∈ next u → u = v ∨ G.Adj u v)
  (hall : ∀ u v, G.Adj u v → v ∈ next u)

include hadj hall

/-- The vertices up to level `d` are those within distance `d`. -/
theorem mem_breadthFirst :
    v ∈ breadthFirst next src d ↔ G.Reachable src v ∧ G.dist src v ≤ d := by
  induction d generalizing v with
  | zero =>
    rw [breadthFirst, List.mem_singleton, Nat.le_zero]
    constructor
    · rintro rfl
      exact ⟨.refl _, SimpleGraph.dist_self⟩
    · rintro ⟨hreach, hzero⟩
      exact (hreach.dist_eq_zero_iff.1 hzero).symm
  | succ d ih =>
    rw [mem_breadthFirst_succ]
    constructor
    · rintro (rfl | ⟨u, hu, hv⟩)
      · rw [SimpleGraph.dist_self]
        exact ⟨.refl _, Nat.zero_le _⟩
      · obtain ⟨hreach, hdist⟩ := ih.1 hu
        obtain rfl | hadj := hadj u v hv
        · exact ⟨hreach, hdist.trans (Nat.le_succ d)⟩
        · exact ⟨hreach.trans hadj.reachable, (dist_le_succ hreach hadj).trans (Nat.succ_le_succ hdist)⟩
    · rintro ⟨hreach, hle⟩
      obtain hlt | heq := Nat.lt_or_eq_of_le hle
      · have hv := ih.2 ⟨hreach, Nat.lt_succ_iff.1 hlt⟩
        exact mem_breadthFirst_succ.1 (mem_breadthFirst_of_le (Nat.le_succ d) hv)
      · obtain ⟨u, hadj, hu⟩ := exists_adj_of_dist_eq_succ heq
        exact .inr ⟨u, ih.2 ⟨hreach.trans hadj.symm.reachable, hu.le⟩, hall u v hadj⟩

/-- A breadth-first order does not go back to a smaller distance. -/
theorem pairwise_dist_breadthFirst :
    (breadthFirst next src d).Pairwise fun u v => G.dist src u ≤ G.dist src v := by
  induction d with
  | zero => exact List.pairwise_singleton _ src
  | succ d ih =>
    have hgrown : breadthFirst next src d <+: breadthFirst next src (d + 1) :=
      breadthFirst_extended (Nat.le_succ d)
    obtain ⟨new, hnew⟩ := hgrown
    have hfar : ∀ v ∈ new, G.dist src v = d + 1 := by
      intro v hv
      have hnodup : (breadthFirst next src d ++ new).Nodup := hnew ▸ nodup_breadthFirst
      have hmem : v ∈ breadthFirst next src (d + 1) := hnew ▸ List.mem_append_right _ hv
      obtain ⟨hreach, hle⟩ := (mem_breadthFirst hadj hall).1 hmem
      by_contra hne
      have hold : v ∈ breadthFirst next src d := (mem_breadthFirst hadj hall).2 ⟨hreach, by omega⟩
      exact (List.nodup_append.1 hnodup).2.2 v hold v hv rfl
    rw [← hnew, List.pairwise_append]
    refine ⟨ih, List.pairwise_of_forall_mem_list fun u hu v hv => ?_, fun u hu v hv => ?_⟩
    · rw [hfar u hu, hfar v hv]
    · rw [hfar v hv]
      exact ((mem_breadthFirst hadj hall).1 hu).2.trans (Nat.le_succ d)

end Distance

end Multicore
