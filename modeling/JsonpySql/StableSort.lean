/-
JsonpySql/StableSort.lean

Sorting by a comparison that may raise.

The sort asks only whether one element is below another, and elements neither of
which is below the other keep their order; `reverse` sorts by the converse
comparison and keeps such elements in order too.  Where the comparison answers
on all pairs, and is a weak order on them, the outcome is fixed
(`sort_stableSorted`): a permutation, in order, and unchanged on every class of
tied elements.  Which sorting algorithm computes it makes no difference there.
-/
import Mathlib.Data.List.Sort

namespace StableSort

variable {ε α : Type*}

/-- Insert an element in front of the first that is not below it. -/
def insertBy (lt : α → α → Except ε Bool) (a : α) : List α → Except ε (List α)
  | [] => .ok [a]
  | b :: l =>
      match lt b a with
      | .error e => .error e
      | .ok true => (insertBy lt a l).map fun l => b :: l
      | .ok false => .ok (a :: b :: l)

/-- Sort in ascending order. -/
def sortAscending (lt : α → α → Except ε Bool) : List α → Except ε (List α)
  | [] => .ok []
  | a :: l =>
      match sortAscending lt l with
      | .error e => .error e
      | .ok l => insertBy lt a l

/-- Sort, in descending order if `reverse` is set. -/
def sort (lt : α → α → Except ε Bool) (reverse : Bool) (l : List α) : Except ε (List α) :=
  if reverse then (sortAscending lt l.reverse).map List.reverse else sortAscending lt l

/-! ### A comparison that answers -/

/-- On the elements of the list, `less` is a weak order. -/
structure WeakOrder (less : α → α → Bool) (l : List α) : Prop where
  asymm : ∀ a ∈ l, ∀ b ∈ l, less a b = true → less b a = false
  negTrans : ∀ a ∈ l, ∀ b ∈ l, ∀ c ∈ l, less a b = false → less b c = false → less a c = false

/-- What a stable sort makes of a list. -/
structure StableSorted (less : α → α → Bool) (l r : List α) : Prop where
  perm : r.Perm l
  pairwise : r.Pairwise fun a b => less b a = false
  stable : ∀ p : α → Bool, (∀ a ∈ l, ∀ b ∈ l, p a = true → p b = true → less a b = false) →
    r.filter p = l.filter p

section Answers

variable {lt : α → α → Except ε Bool} {less : α → α → Bool} {a : α} {l r : List α}

theorem insertBy_eq_orderedInsert (h : ∀ b ∈ l, lt b a = .ok (less b a)) :
    insertBy lt a l = .ok (l.orderedInsert (fun a b => less b a = false) a) := by
  induction l with
  | nil => rfl
  | cons b l ih =>
      rw [insertBy, h b List.mem_cons_self, List.orderedInsert_cons]
      rcases less b a with _ | _
      · rfl
      · rw [ih fun b' hb' => h b' (List.mem_cons_of_mem _ hb')]
        rfl

theorem sortAscending_eq_insertionSort (h : ∀ a ∈ l, ∀ b ∈ l, lt a b = .ok (less a b)) :
    sortAscending lt l = .ok (l.insertionSort fun a b => less b a = false) := by
  induction l with
  | nil => rfl
  | cons a l ih =>
      have hl := ih fun b hb c hc => h b (List.mem_cons_of_mem _ hb) c (List.mem_cons_of_mem _ hc)
      rw [sortAscending, hl, List.insertionSort_cons]
      refine insertBy_eq_orderedInsert fun b hb => ?_
      exact h b (List.mem_cons_of_mem _ ((List.mem_insertionSort _).mp hb)) a List.mem_cons_self

/-- The sorted list is in order. -/
theorem WeakOrder.pairwise_insertionSort (h : WeakOrder less l) :
    (l.insertionSort fun a b => less b a = false).Pairwise fun a b => less b a = false := by
  -- on the members of the list the order is total and transitive
  let le : {a // a ∈ l} → {a // a ∈ l} → Prop := fun a b => less b.1 a.1 = false
  have htotal : Std.Total le := ⟨fun a b => by
    rcases hab : less a.1 b.1 with _ | _
    · exact Or.inr hab
    · exact Or.inl (h.asymm a.1 a.2 b.1 b.2 hab)⟩
  have htrans : IsTrans _ le := ⟨fun a b c hab hbc =>
    h.negTrans c.1 c.2 b.1 b.2 a.1 a.2 hbc hab⟩
  have hmap : (l.attach.insertionSort le).map Subtype.val =
      l.insertionSort fun a b => less b a = false := by
    have hval := List.map_insertionSort le (fun a b => less b a = false) Subtype.val l.attach
      fun _ _ _ _ => Iff.rfl
    rwa [List.attach_map_subtype_val] at hval
  rw [← hmap, List.pairwise_map]
  exact List.pairwise_insertionSort le l.attach

theorem WeakOrder.stableSorted (h : WeakOrder less l) :
    StableSorted less l (l.insertionSort fun a b => less b a = false) where
  perm := List.perm_insertionSort _ l
  pairwise := h.pairwise_insertionSort
  stable := by
    intro p hties
    have hpairwise : (l.filter p).Pairwise fun a b => less b a = false := by
      refine List.pairwise_of_forall_mem_list fun a ha b hb => ?_
      obtain ⟨ha, hpa⟩ := List.mem_filter.mp ha
      obtain ⟨hb, hpb⟩ := List.mem_filter.mp hb
      exact hties b hb a ha hpb hpa
    have hsub := (List.sublist_insertionSort hpairwise List.filter_sublist).filter p
    rw [List.filter_filter] at hsub
    simp only [Bool.and_self] at hsub
    exact (hsub.eq_of_length ((List.perm_insertionSort _ l).filter p).length_eq.symm).symm

/-- **A stable sort**, in either direction. -/
theorem sort_stableSorted (h : ∀ a ∈ l, ∀ b ∈ l, lt a b = .ok (less a b)) (hw : WeakOrder less l)
    (reverse : Bool) : ∃ r, sort lt reverse l = .ok r ∧
      StableSorted (if reverse then fun a b => less b a else less) l r := by
  cases reverse with
  | false => exact ⟨_, sortAscending_eq_insertionSort h, hw.stableSorted⟩
  | true =>
      have hw' : WeakOrder less l.reverse :=
        ⟨fun a ha b hb => hw.asymm a (List.mem_reverse.mp ha) b (List.mem_reverse.mp hb),
          fun a ha b hb c hc => hw.negTrans a (List.mem_reverse.mp ha) b (List.mem_reverse.mp hb)
            c (List.mem_reverse.mp hc)⟩
      have hsort : sortAscending lt l.reverse = _ := sortAscending_eq_insertionSort
        fun a ha b hb => h a (List.mem_reverse.mp ha) b (List.mem_reverse.mp hb)
      obtain ⟨hperm, hpairwise, hstable⟩ := hw'.stableSorted
      refine ⟨_, by rw [sort, if_pos rfl, hsort]; rfl, ?_, ?_, fun p hties => ?_⟩
      · exact (List.reverse_perm _).trans (hperm.trans (List.reverse_perm l))
      · exact List.pairwise_reverse.mpr hpairwise
      · rw [List.filter_reverse, hstable p, List.filter_reverse, List.reverse_reverse]
        intro a ha b hb hpa hpb
        exact hties b (List.mem_reverse.mp hb) a (List.mem_reverse.mp ha) hpb hpa

end Answers

/-- In a list that is in order, the elements of an initial class come first. -/
theorem eq_filter_append_filter {p : α → Bool} {l : List α}
    (h : l.Pairwise fun a b => p b = true → p a = true) :
    l = l.filter p ++ l.filter fun a => !p a := by
  induction l with
  | nil => rfl
  | cons a l ih =>
      obtain ⟨ha, hl⟩ := List.pairwise_cons.mp h
      rcases hp : p a with _ | _
      · have hnone : l.filter p = [] := by
          rw [List.filter_eq_nil_iff]
          intro b hb hpb
          rw [ha b hb hpb] at hp
          cases hp
        rw [List.filter_cons, List.filter_cons, hp, hnone]
        rw [hnone, List.nil_append] at ih
        exact congrArg (List.cons a) (ih hl)
      · rw [List.filter_cons, List.filter_cons, hp]
        exact congrArg (List.cons a) (ih hl)

end StableSort
