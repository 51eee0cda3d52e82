import Mathlib.Data.List.Infix
import Mathlib.Data.List.Nodup
import Mathlib.Logic.Relation

/-!
# Neighbours in a list

A linked list in memory is described by the list of its nodes together with what every two
neighbouring nodes store about each other. `Consecutive l a b` says that `b` comes right after `a`
in `l`; the lemmas say what happens to neighbours when an element is put in front or taken out.
-/

namespace Multicore

variable {α : Type*} {l : List α} {a b c x : α}

def Consecutive (l : List α) (a b : α) : Prop := [a, b] <:+: l

theorem not_consecutive_nil : ¬ Consecutive [] a b := by
  simp [Consecutive]

theorem consecutive_cons :
    Consecutive (x :: l) a b ↔ x = a ∧ l.head? = some b ∨ Consecutive l a b := by
  unfold Consecutive
  rw [List.infix_cons_iff, List.cons_prefix_cons]
  rcases l with _ | ⟨y, l⟩
  · simp
  · rw [List.cons_prefix_cons]
    simp only [List.nil_prefix, and_true, List.head?_cons, Option.some.injEq, eq_comm]

namespace Consecutive

theorem mem_left (h : Consecutive l a b) : a ∈ l := List.IsInfix.mem (by simp) h

theorem mem_right (h : Consecutive l a b) : b ∈ l := List.IsInfix.mem (by simp) h

theorem rel {R : α → α → Prop} (h : Consecutive l a b) (hpair : l.Pairwise R) : R a b := by
  have := hpair.sublist h.sublist
  simpa using this

/-- Nothing of the list lies strictly between two neighbours. -/
theorem before_or_after {R : α → α → Prop} (h : Consecutive l a b) (hpair : l.Pairwise R)
    (hc : c ∈ l) : c = a ∨ R c a ∨ c = b ∨ R b c := by
  obtain ⟨left, right, rfl⟩ := h
  simp only [List.append_assoc, List.cons_append, List.nil_append, List.pairwise_append,
    List.pairwise_cons, List.mem_append, List.mem_cons] at hpair hc
  rcases hc with hc | rfl | rfl | hc
  · exact .inr (.inl (hpair.2.2 c hc a (.inl rfl)))
  · exact .inl rfl
  · exact .inr (.inr (.inl rfl))
  · exact .inr (.inr (.inr (hpair.2.1.2.1 c hc)))

theorem ne (hnodup : l.Nodup) (h : Consecutive l a b) : a ≠ b := h.rel hnodup

theorem right_unique (hnodup : l.Nodup) (hb : Consecutive l a b) (hc : Consecutive l a c) : b = c := by
  induction l with
  | nil => exact absurd hb not_consecutive_nil
  | cons x l ih =>
    rw [List.nodup_cons] at hnodup
    rw [consecutive_cons] at hb hc
    rcases hb with ⟨rfl, hb⟩ | hb <;> rcases hc with ⟨hx, hc⟩ | hc
    · exact Option.some.inj (hb.symm.trans hc)
    · exact absurd hc.mem_left hnodup.1
    · exact absurd (hx ▸ hb.mem_left) hnodup.1
    · exact ih hnodup.2 hb hc

theorem ne_head (hnodup : l.Nodup) (h : Consecutive l a b) : l.head? ≠ some b := by
  rcases l with _ | ⟨x, l⟩
  · exact absurd h not_consecutive_nil
  · rw [List.nodup_cons] at hnodup
    rintro ⟨⟩
    rcases consecutive_cons.mp h with ⟨rfl, hb⟩ | h
    · exact hnodup.1 (List.mem_of_mem_head? hb)
    · exact hnodup.1 h.mem_right

theorem left_unique (hnodup : l.Nodup) (ha : Consecutive l a c) (hb : Consecutive l b c) : a = b := by
  induction l with
  | nil => exact absurd ha not_consecutive_nil
  | cons x l ih =>
    rw [List.nodup_cons] at hnodup
    rw [consecutive_cons] at ha hb
    rcases ha with ⟨rfl, ha⟩ | ha <;> rcases hb with ⟨rfl, hb⟩ | hb
    · rfl
    · exact absurd ha (hb.ne_head hnodup.2)
    · exact absurd hb (ha.ne_head hnodup.2)
    · exact ih hnodup.2 ha hb

theorem ne_last (hnodup : l.Nodup) (h : Consecutive l a b) : l.getLast? ≠ some a := by
  obtain ⟨left, right, rfl⟩ := h
  have hlast : (left ++ [a, b] ++ right).getLast? = (b :: right).getLast? := by
    rw [List.append_assoc, List.cons_append, List.cons_append, List.nil_append, List.getLast?_append,
      List.getLast?_cons_cons, List.getLast?_cons]
    rfl
  rw [hlast]
  intro heq
  have hmem : a ∈ b :: right := List.mem_of_getLast? heq
  simp only [List.append_assoc, List.cons_append, List.nil_append, List.nodup_append,
    List.nodup_cons] at hnodup
  exact hnodup.2.1.1 hmem

end Consecutive

theorem last_or_consecutive (ha : a ∈ l) : l.getLast? = some a ∨ ∃ b, Consecutive l a b := by
  obtain ⟨left, right, rfl⟩ := List.append_of_mem ha
  rcases right with _ | ⟨b, right⟩
  · exact .inl (by simp)
  · exact .inr ⟨b, left, right, by simp⟩

theorem head_or_consecutive (hb : b ∈ l) : l.head? = some b ∨ ∃ a, Consecutive l a b := by
  obtain ⟨left, right, rfl⟩ := List.append_of_mem hb
  rcases left.eq_nil_or_concat with rfl | ⟨left, a, rfl⟩
  · exact .inl (by simp)
  · exact .inr ⟨a, left, right, by simp⟩

theorem consecutive_reverse : Consecutive l.reverse a b ↔ Consecutive l b a := by
  unfold Consecutive
  rw [← List.reverse_infix, List.reverse_reverse]
  rfl

/-! ### Taking an element out -/

section Erase

variable [DecidableEq α]

theorem head?_erase (hnodup : l.Nodup) : (l.erase x).head? = some b ↔
    l.head? = some b ∧ b ≠ x ∨ l.head? = some x ∧ Consecutive l x b := by
  rcases l with _ | ⟨y, l⟩
  · simp
  · rw [List.nodup_cons] at hnodup
    by_cases hyx : y = x
    · subst hyx
      rw [List.erase_cons_head, consecutive_cons]
      have hnot : ¬ Consecutive l y b := fun h => hnodup.1 h.mem_left
      simp only [List.head?_cons, Option.some.injEq, true_and, hnot, or_false]
      constructor
      · exact .inr
      · rintro (⟨rfl, hne⟩ | hhead)
        · exact absurd rfl hne
        · exact hhead
    · rw [List.erase_cons_tail (by simpa using hyx), List.head?_cons, List.head?_cons]
      simp only [Option.some.injEq, hyx, false_and, or_false]
      exact ⟨fun h => ⟨h, h ▸ hyx⟩, And.left⟩

theorem head?_erase_of_ne (hhead : l.head? ≠ some x) : (l.erase x).head? = l.head? := by
  cases l with
  | nil => rfl
  | cons y l =>
    have hne : y ≠ x := fun heq => hhead (congrArg some heq)
    rw [List.erase_cons_tail (by simpa using hne)]
    rfl

theorem consecutive_erase (hnodup : l.Nodup) : Consecutive (l.erase x) a b ↔
    Consecutive l a b ∧ a ≠ x ∧ b ≠ x ∨ Consecutive l a x ∧ Consecutive l x b := by
  induction l with
  | nil => simp [not_consecutive_nil]
  | cons y l ih =>
    rw [List.nodup_cons] at hnodup
    by_cases hyx : y = x
    · subst hyx
      rw [List.erase_cons_head]
      constructor
      · intro h
        refine .inl ⟨consecutive_cons.mpr (.inr h), ?_, ?_⟩
        · exact fun heq => hnodup.1 (heq ▸ h.mem_left)
        · exact fun heq => hnodup.1 (heq ▸ h.mem_right)
      · rintro (⟨h, hne, _⟩ | ⟨h, _⟩) <;> rw [consecutive_cons] at h
        · exact h.resolve_left fun heq => hne heq.1.symm
        · rcases h with ⟨_, hhead⟩ | h
          · exact absurd (List.mem_of_mem_head? hhead) hnodup.1
          · exact absurd h.mem_right hnodup.1
    · have hxb : ∀ c, Consecutive (y :: l) x c ↔ Consecutive l x c := fun c => by
        rw [consecutive_cons]
        simp [hyx]
      rw [List.erase_cons_tail (by simpa using hyx), consecutive_cons, head?_erase hnodup.2,
        ih hnodup.2, consecutive_cons, consecutive_cons, hxb]
      constructor
      · rintro (⟨rfl, ⟨hhead, hne⟩ | ⟨hhead, hxb⟩⟩ | ⟨h, hne⟩ | ⟨hax, hxb⟩)
        · exact .inl ⟨.inl ⟨rfl, hhead⟩, hyx, hne⟩
        · exact .inr ⟨.inl ⟨rfl, hhead⟩, hxb⟩
        · exact .inl ⟨.inr h, hne⟩
        · exact .inr ⟨.inr hax, hxb⟩
      · rintro (⟨⟨rfl, hhead⟩ | h, hne⟩ | ⟨⟨rfl, hhead⟩ | hax, hxb⟩)
        · exact .inl ⟨rfl, .inl ⟨hhead, hne.2⟩⟩
        · exact .inr (.inl ⟨h, hne⟩)
        · exact .inl ⟨rfl, .inr ⟨hhead, hxb⟩⟩
        · exact .inr (.inr ⟨hax, hxb⟩)

end Erase

/-- A part of a list without repetitions is what its own members select from the list. -/
theorem eq_filter_of_sublist {m : List α} {p : α → Bool} (hsub : l.Sublist m) (hnodup : m.Nodup)
    (hmem : ∀ e ∈ m, e ∈ l ↔ p e = true) : l = m.filter p := by
  have hall : l.filter p = l := List.filter_eq_self.mpr fun e he => (hmem e (hsub.subset he)).mp he
  have hle : l.Sublist (m.filter p) := hall ▸ hsub.filter p
  have hperm : l.Perm (m.filter p) := by
    refine (List.perm_ext_iff_of_nodup (hnodup.sublist hsub) (hnodup.filter p)).mpr fun e => ?_
    rw [List.mem_filter]
    exact ⟨fun he => ⟨hsub.subset he, (hmem e (hsub.subset he)).mp he⟩, fun he => (hmem e he.1).mpr he.2⟩
  exact hle.eq_of_length hperm.length_eq

/-! ### The neighbours as optional values

A pointer field holds the neighbour or nothing. -/

/-- `p` is what follows `a`: the next element, or nothing when `a` is the last. -/
def FollowedBy (l : List α) (a : α) : Option α → Prop
  | none => l.getLast? = some a
  | some b => Consecutive l a b

/-- `p` is what precedes `b`: the element before, or nothing when `b` is the first. -/
def PrecededBy (l : List α) (b : α) : Option α → Prop
  | none => l.head? = some b
  | some a => Consecutive l a b

section Neighbours

variable {p q : Option α}

theorem FollowedBy.mem (h : FollowedBy l a p) : a ∈ l := by
  cases p with
  | none => exact List.mem_of_getLast? h
  | some b => exact Consecutive.mem_left h

theorem PrecededBy.mem (h : PrecededBy l b p) : b ∈ l := by
  cases p with
  | none => exact List.mem_of_mem_head? h
  | some a => exact Consecutive.mem_right h

theorem FollowedBy.unique (hnodup : l.Nodup) (hp : FollowedBy l a p) (hq : FollowedBy l a q) :
    p = q := by
  cases p <;> cases q
  · rfl
  · exact absurd hp (Consecutive.ne_last hnodup hq)
  · exact absurd hq (Consecutive.ne_last hnodup hp)
  · exact congrArg some (Consecutive.right_unique hnodup hp hq)

theorem PrecededBy.unique (hnodup : l.Nodup) (hp : PrecededBy l b p) (hq : PrecededBy l b q) :
    p = q := by
  cases p <;> cases q
  · rfl
  · exact absurd hp (Consecutive.ne_head hnodup hq)
  · exact absurd hq (Consecutive.ne_head hnodup hp)
  · exact congrArg some (Consecutive.left_unique hnodup hp hq)

theorem precededBy_reverse : PrecededBy l.reverse a p ↔ FollowedBy l a p := by
  cases p with
  | none => rw [PrecededBy, FollowedBy, List.head?_reverse]
  | some b => exact consecutive_reverse

theorem followedBy_cons_self : FollowedBy (x :: l) x l.head? := by
  rcases l with _ | ⟨y, l⟩
  · rfl
  · exact consecutive_cons.mpr (.inl ⟨rfl, rfl⟩)

theorem FollowedBy.cons (h : FollowedBy l a p) : FollowedBy (x :: l) a p := by
  cases p with
  | some b => exact consecutive_cons.mpr (.inr h)
  | none =>
    rcases l with _ | ⟨y, l⟩
    · exact absurd h (by simp [FollowedBy])
    · exact (List.getLast?_cons_cons).trans h

theorem PrecededBy.cons (h : PrecededBy l b p) (hne : l.head? ≠ some b) :
    PrecededBy (x :: l) b p := by
  cases p with
  | none => exact absurd h hne
  | some a => exact consecutive_cons.mpr (.inr h)

theorem followedBy_reverse : FollowedBy l.reverse a p ↔ PrecededBy l a p := by
  rw [← precededBy_reverse, List.reverse_reverse]

/-! At the end of a list things are as at the beginning of its reverse. -/

theorem precededBy_concat_self : PrecededBy (l ++ [x]) x l.getLast? := by
  rw [← followedBy_reverse, List.reverse_append, ← List.head?_reverse]
  exact followedBy_cons_self

theorem PrecededBy.concat (h : PrecededBy l b p) : PrecededBy (l ++ [x]) b p := by
  rw [← followedBy_reverse, List.reverse_append]
  exact (followedBy_reverse.mpr h).cons

theorem FollowedBy.concat (h : FollowedBy l a p) (hne : l.getLast? ≠ some a) :
    FollowedBy (l ++ [x]) a p := by
  rw [← precededBy_reverse, List.reverse_append]
  exact (precededBy_reverse.mpr h).cons (by rwa [List.head?_reverse])

variable [DecidableEq α]

theorem FollowedBy.erase (hnodup : l.Nodup) (h : FollowedBy l a p) (ha : a ≠ x) (hp : p ≠ some x) :
    FollowedBy (l.erase x) a p := by
  cases p with
  | some b =>
    have hb : b ≠ x := fun heq => hp (congrArg some heq)
    exact (consecutive_erase hnodup).mpr (.inl ⟨h, ha, hb⟩)
  | none =>
    have hmem : a ∈ l.erase x := (hnodup.mem_erase_iff).mpr ⟨ha, h.mem⟩
    rcases last_or_consecutive hmem with hlast | ⟨b, hab⟩
    · exact hlast
    · rcases (consecutive_erase hnodup).mp hab with ⟨hab, _⟩ | ⟨hax, _⟩
      · exact absurd h (hab.ne_last hnodup)
      · exact absurd h (hax.ne_last hnodup)

/-- What followed `x` follows the element before `x` once `x` is out. -/
theorem FollowedBy.erase_over (hnodup : l.Nodup) (h : FollowedBy l x p) (hax : Consecutive l a x) :
    FollowedBy (l.erase x) a p := by
  cases p with
  | some b => exact (consecutive_erase hnodup).mpr (.inr ⟨hax, h⟩)
  | none =>
    have ha : a ≠ x := fun heq => by
      rw [heq] at hax
      exact absurd h (hax.ne_last hnodup)
    have hmem : a ∈ l.erase x := (hnodup.mem_erase_iff).mpr ⟨ha, hax.mem_left⟩
    rcases last_or_consecutive hmem with hlast | ⟨b, hab⟩
    · exact hlast
    · rcases (consecutive_erase hnodup).mp hab with ⟨hab, _, hb⟩ | ⟨_, hxb⟩
      · exact absurd (hab.right_unique hnodup hax) hb
      · exact absurd h (hxb.ne_last hnodup)

theorem PrecededBy.erase (hnodup : l.Nodup) (h : PrecededBy l b p) (hb : b ≠ x) (hp : p ≠ some x) :
    PrecededBy (l.erase x) b p := by
  cases p with
  | none => exact (head?_erase hnodup).mpr (.inl ⟨h, hb⟩)
  | some a =>
    have ha : a ≠ x := fun heq => hp (congrArg some heq)
    exact (consecutive_erase hnodup).mpr (.inl ⟨h, ha, hb⟩)

/-- What preceded `x` precedes the element after `x` once `x` is out. -/
theorem PrecededBy.erase_over (hnodup : l.Nodup) (h : PrecededBy l x p) (hxb : Consecutive l x b) :
    PrecededBy (l.erase x) b p := by
  cases p with
  | none => exact (head?_erase hnodup).mpr (.inr ⟨h, hxb⟩)
  | some a => exact (consecutive_erase hnodup).mpr (.inr ⟨h, hxb⟩)

/-- Once the first element is out, the list starts with what followed it. -/
theorem FollowedBy.head?_erase (hnodup : l.Nodup) (h : FollowedBy l x p) (hhead : l.head? = some x) :
    (l.erase x).head? = p := by
  rcases l with _ | ⟨y, l⟩
  · cases hhead
  · obtain rfl : y = x := Option.some.inj hhead
    rw [List.erase_cons_head]
    exact followedBy_cons_self.unique hnodup h

end Neighbours

/-! ### Following links -/

/-- Where neighbours are linked as far as the node behind is good, and good nodes come first, every
good node can be reached from the head. -/
theorem reflTransGen_of_consecutive {R : α → α → Prop} {P : α → Prop} {first : α}
    (hhead : l.head? = some first) (hlink : ∀ a b, Consecutive l a b → P b → R a b)
    (hup : ∀ a b, Consecutive l a b → P b → P a) (ha : a ∈ l) (hgood : P a) :
    Relation.ReflTransGen R first a ∧ P first := by
  induction l generalizing first with
  | nil => cases ha
  | cons x l ih =>
    obtain rfl : x = first := Option.some.inj hhead
    rcases List.mem_cons.mp ha with rfl | ha
    · exact ⟨.refl, hgood⟩
    · obtain ⟨y, hy⟩ : ∃ y, l.head? = some y :=
        ⟨_, List.head?_eq_some_head (List.ne_nil_of_mem ha)⟩
      have hxy : Consecutive (x :: l) x y := consecutive_cons.mpr (.inl ⟨rfl, hy⟩)
      have htail : ∀ a b, Consecutive l a b → Consecutive (x :: l) a b := fun a b hab =>
        consecutive_cons.mpr (.inr hab)
      obtain ⟨hreach, hfirst⟩ := ih hy (fun a b hab => hlink a b (htail a b hab))
        (fun a b hab => hup a b (htail a b hab)) ha
      exact ⟨.head (hlink x y hxy hfirst) hreach, hup x y hxy hfirst⟩

/-! ### Inserting behind an element -/

section InsertAfter

variable {left right : List α} {p : Option α}

/-- `e` put behind the first `a` of the list. -/
def insertAfter [DecidableEq α] (a e : α) : List α → List α
  | [] => []
  | x :: l => if x = a then x :: e :: l else x :: insertAfter a e l

theorem insertAfter_split [DecidableEq α] {e : α} (hleft : a ∉ left) :
    insertAfter a e (left ++ a :: right) = left ++ a :: e :: right := by
  induction left with
  | nil => rw [List.nil_append, insertAfter, if_pos rfl, List.nil_append]
  | cons x left ih =>
    rw [List.mem_cons, not_or] at hleft
    rw [List.cons_append, insertAfter, if_neg (Ne.symm hleft.1), ih hleft.2, List.cons_append]

theorem consecutive_append_cons : Consecutive (left ++ c :: right) a b ↔
    Consecutive (left ++ [c]) a b ∨ c = a ∧ right.head? = some b ∨ Consecutive right a b := by
  induction left with
  | nil => simp [consecutive_cons, not_consecutive_nil]
  | cons x left ih =>
    have hhead : (left ++ c :: right).head? = (left ++ [c]).head? := by cases left <;> rfl
    rw [List.cons_append, List.cons_append, consecutive_cons, consecutive_cons, ih, hhead, or_assoc]

theorem FollowedBy.append_left (h : FollowedBy (c :: right) a p) :
    FollowedBy (left ++ c :: right) a p := by
  induction left with
  | nil => exact h
  | cons x left ih => exact ih.cons

/-- What follows an element, other than the one the insertion is behind, still follows it. -/
theorem FollowedBy.insert {e : α} (h : FollowedBy (left ++ c :: right) a p) (ha : a ≠ c) :
    FollowedBy (left ++ c :: e :: right) a p := by
  cases p with
  | some b =>
    refine consecutive_append_cons.mpr ?_
    rcases consecutive_append_cons.mp h with h | ⟨hc, -⟩ | h
    · exact .inl h
    · exact absurd hc.symm ha
    · exact .inr (.inr (consecutive_cons.mpr (.inr h)))
  | none =>
    rw [FollowedBy, List.getLast?_append_cons] at h ⊢
    rcases right with _ | ⟨y, right⟩
    · exact absurd (Option.some.inj h).symm ha
    · rwa [List.getLast?_cons_cons, List.getLast?_cons_cons, ← List.getLast?_cons_cons]

/-- What precedes an element, other than the one the insertion is in front of, still precedes it. -/
theorem PrecededBy.insert {e : α} (h : PrecededBy (left ++ c :: right) b p)
    (hb : right.head? ≠ some b) : PrecededBy (left ++ c :: e :: right) b p := by
  cases p with
  | none =>
    rw [PrecededBy] at h ⊢
    rcases left with _ | ⟨x, left⟩ <;> exact h
  | some a =>
    refine consecutive_append_cons.mpr ?_
    rcases consecutive_append_cons.mp h with h | ⟨-, hhead⟩ | h
    · exact .inl h
    · exact absurd hhead hb
    · exact .inr (.inr (consecutive_cons.mpr (.inr h)))

end InsertAfter

/-- Following `next` from `start` visits the elements of the list one after another and ends. -/
def Visits (next : α → Option α) : Option α → List α → Prop
  | start, [] => start = none
  | start, x :: l => start = some x ∧ Visits next (next x) l

instance decidableVisits [DecidableEq α] (next : α → Option α) :
    ∀ start l, Decidable (Visits next start l)
  | start, [] => inferInstanceAs (Decidable (start = none))
  | start, x :: l =>
    haveI := decidableVisits next (next x) l
    inferInstanceAs (Decidable (start = some x ∧ Visits next (next x) l))

theorem visits_iff {next : α → Option α} {start : Option α} : Visits next start l ↔
    start = l.head? ∧ (∀ a b, Consecutive l a b → next a = some b) ∧
      ∀ a, l.getLast? = some a → next a = none := by
  induction l generalizing start with
  | nil => simp [Visits, not_consecutive_nil]
  | cons x l ih =>
    rw [Visits, ih, List.head?_cons]
    rcases l with _ | ⟨y, l⟩
    · simp [not_consecutive_nil, consecutive_cons]
    · simp only [consecutive_cons, List.head?_cons, List.getLast?_cons_cons, Option.some.injEq]
      constructor
      · rintro ⟨hstart, hnext, hlink, hlast⟩
        refine ⟨hstart, ?_, hlast⟩
        rintro a b (⟨rfl, rfl⟩ | hab)
        · exact hnext
        · exact hlink a b hab
      · rintro ⟨hstart, hlink, hlast⟩
        exact ⟨hstart, hlink x y (.inl ⟨rfl, rfl⟩), fun a b hab => hlink a b (.inr hab), hlast⟩

theorem Visits.followedBy {next : α → Option α} {start : Option α} (hvisits : Visits next start l)
    (ha : a ∈ l) : FollowedBy l a (next a) := by
  obtain ⟨_, hlink, hlast⟩ := visits_iff.mp hvisits
  rcases last_or_consecutive ha with hend | ⟨b, hab⟩
  · rw [hlast a hend]
    exact hend
  · rw [hlink a b hab]
    exact hab

theorem Visits.unique {next : α → Option α} {start : Option α} {l' : List α}
    (hvisits : Visits next start l) (hother : Visits next start l') : l = l' := by
  induction l generalizing start l' with
  | nil =>
    cases l' with
    | nil => rfl
    | cons y l' => cases hvisits.symm.trans hother.1
  | cons x l ih =>
    cases l' with
    | nil => cases hother.symm.trans hvisits.1
    | cons y l' =>
      obtain rfl : x = y := Option.some.inj (hvisits.1.symm.trans hother.1)
      rw [ih hvisits.2 hother.2]

/-- Where every link leads to the next element or nowhere, following the links visits a first part of
the list and stops in front of the rest at a link that leads nowhere. -/
theorem exists_visits {next : α → Option α}
    (hlink : ∀ a b, Consecutive l a b → next a = some b ∨ next a = none)
    (hlast : ∀ a, l.getLast? = some a → next a = none) :
    ∃ front rest, l = front ++ rest ∧ Visits next l.head? front ∧
      ∀ b, rest.head? = some b → ∃ a, Consecutive l a b ∧ next a = none := by
  induction l with
  | nil => exact ⟨[], [], rfl, rfl, fun b hb => by cases hb⟩
  | cons x l ih =>
    rcases l with _ | ⟨y, l⟩
    · exact ⟨[x], [], rfl, ⟨rfl, hlast x rfl⟩, fun b hb => by cases hb⟩
    · have hxy : Consecutive (x :: y :: l) x y := consecutive_cons.mpr (.inl ⟨rfl, rfl⟩)
      rcases hlink x y hxy with hnext | hnext
      · obtain ⟨front, rest, hsplit, hvisits, hstop⟩ :=
          ih (fun a b hab => hlink a b (consecutive_cons.mpr (.inr hab))) fun a ha =>
            hlast a (by rwa [List.getLast?_cons_cons])
        refine ⟨x :: front, rest, by rw [hsplit, List.cons_append], ⟨rfl, hnext ▸ hvisits⟩, ?_⟩
        intro b hb
        obtain ⟨a, hab, ha⟩ := hstop b hb
        exact ⟨a, consecutive_cons.mpr (.inr hab), ha⟩
      · refine ⟨[x], y :: l, rfl, ⟨rfl, hnext⟩, fun b hb => ⟨x, ?_, hnext⟩⟩
        exact consecutive_cons.mpr (.inl ⟨rfl, hb⟩)

end Multicore
