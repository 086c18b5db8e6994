/-
JsonpySql/Generators.lean

What a generator does when it is run to its end: the items it yields, in order,
and the exception it ends with, if it does not return.

A consumer that stops early never sees that exception, which is why it is kept
beside the items and not in their place.  Two consumers are here: a `for` loop
that yields in its body (`bind`), and `list` (`toExcept`).  Where nothing raises
they are `flatMap` and the identity (`bind_ofList`, `toExcept_eq_ok_iff`).
-/
import Mathlib.Data.List.Flatten
import Mathlib.Data.List.Forall2

/-- The items of a generator, and the exception after them. -/
structure Gen (ε α : Type*) where
  items : List α
  error : Option ε

namespace Gen

variable {ε α β : Type*}

/-- Yield the items of a list, and return. -/
def ofList (l : List α) : Gen ε α := ⟨l, none⟩

/-- Raise at the first item. -/
def fail (e : ε) : Gen ε α := ⟨[], some e⟩

/-- `yield from` a list that may not be there. -/
def ofExcept : Except ε (List α) → Gen ε α
  | .ok l => ofList l
  | .error e => fail e

/-- One generator after the other: an exception of the first is the end. -/
def append (g h : Gen ε α) : Gen ε α :=
  match g.error with
  | none => ⟨g.items ++ h.items, h.error⟩
  | some _ => g

/-- `for a in l: yield from body(a)`. -/
def forEach (body : α → Gen ε β) : List α → Gen ε β
  | [] => ofList []
  | a :: l => (body a).append (forEach body l)

/-- `for a in g: yield from body(a)`. -/
def bind (g : Gen ε α) (body : α → Gen ε β) : Gen ε β := (forEach body g.items).append ⟨[], g.error⟩

/-- `for a in g: if p(a): yield a`. -/
def filter (p : α → Except ε Bool) (g : Gen ε α) : Gen ε α :=
  g.bind fun a =>
    match p a with
    | .ok b => ofList (if b then [a] else [])
    | .error e => fail e

/-- `(f(a) for a in g)`. -/
def map (f : α → Except ε β) (g : Gen ε α) : Gen ε β :=
  g.bind fun a => ofExcept ((f a).map fun b => [b])

/-- `list(g)`. -/
def toExcept (g : Gen ε α) : Except ε (List α) :=
  match g.error with
  | none => .ok g.items
  | some e => .error e

/-! ### Generators that return -/

@[simp] theorem items_ofList (l : List α) : (ofList l : Gen ε α).items = l := rfl

@[simp] theorem error_ofList (l : List α) : (ofList l : Gen ε α).error = none := rfl

@[simp] theorem toExcept_ofExcept (r : Except ε (List α)) : (ofExcept r).toExcept = r := by
  cases r <;> rfl

theorem toExcept_eq_ok_iff {g : Gen ε α} {l : List α} : g.toExcept = .ok l ↔ g = ofList l := by
  obtain ⟨items, error⟩ := g
  cases error with
  | none => simp [toExcept, ofList]
  | some e => simp [toExcept, ofList]

theorem append_ofList (l l' : List α) :
    (ofList l : Gen ε α).append (ofList l') = ofList (l ++ l') := rfl

@[simp] theorem toExcept_ofList (l : List α) : (ofList l : Gen ε α).toExcept = .ok l := rfl

@[simp] theorem toExcept_fail (e : ε) : (fail e : Gen ε α).toExcept = .error e := rfl

/-- The list of a sequence. -/
theorem toExcept_append (g h : Gen ε α) : (g.append h).toExcept =
    match g.toExcept with
    | .ok l => h.toExcept.map (l ++ ·)
    | .error e => .error e := by
  obtain ⟨items, error⟩ := g
  cases error with
  | none =>
      obtain ⟨items', error'⟩ := h
      cases error' <;> rfl
  | some e => rfl

/-- A sequence returns when both its parts do. -/
theorem append_eq_ofList_iff {g h : Gen ε α} {l : List α} : g.append h = ofList l ↔
    ∃ l₁ l₂, g = ofList l₁ ∧ h = ofList l₂ ∧ l = l₁ ++ l₂ := by
  constructor
  · intro happend
    obtain ⟨items, error⟩ := g
    cases error with
    | none =>
        obtain ⟨rfl, herror⟩ := Gen.mk.inj happend
        exact ⟨items, h.items, rfl, congrArg (Gen.mk h.items) herror, rfl⟩
    | some e => cases happend
  · rintro ⟨l₁, l₂, rfl, rfl, rfl⟩
    rfl

theorem forEach_eq_ofList {body : α → Gen ε β} {f : α → List β} {l : List α}
    (h : ∀ a ∈ l, body a = ofList (f a)) : forEach body l = ofList (l.flatMap f) := by
  induction l with
  | nil => rfl
  | cons a l ih =>
      rw [forEach, h a List.mem_cons_self, ih fun a' ha' => h a' (List.mem_cons_of_mem _ ha'),
        append_ofList, List.flatMap_cons]

/-- A loop that returns ran its body to its end on every item. -/
theorem forall_of_forEach_eq_ofList {body : α → Gen ε β} {l : List α} {r : List β}
    (h : forEach body l = ofList r) : ∀ a ∈ l, body a = ofList (body a).items := by
  induction l generalizing r with
  | nil => exact fun _ ha => absurd ha List.not_mem_nil
  | cons a l ih =>
      obtain ⟨l₁, l₂, hbody, hrest, -⟩ := append_eq_ofList_iff.mp h
      intro a' ha'
      rcases List.mem_cons.mp ha' with rfl | ha'
      · rw [hbody, items_ofList]
      · exact ih hrest a' ha'

@[simp] theorem bind_ofList (l : List α) (body : α → Gen ε β) :
    (ofList l).bind body = forEach body l := by
  rw [bind, items_ofList, error_ofList]
  obtain ⟨items, error⟩ := forEach body l
  cases error with
  | none => simp [append]
  | some e => rfl

theorem bind_eq_ofList_iff {g : Gen ε α} {body : α → Gen ε β} {r : List β} :
    g.bind body = ofList r ↔ ∃ l, g = ofList l ∧ forEach body l = ofList r := by
  constructor
  · intro h
    obtain ⟨l₁, l₂, hloop, hend, rfl⟩ := append_eq_ofList_iff.mp h
    obtain ⟨rfl, herror⟩ := Gen.mk.inj hend
    exact ⟨g.items, congrArg (Gen.mk g.items) herror, by rw [hloop, List.append_nil]⟩
  · rintro ⟨l, rfl, h⟩
    rw [bind_ofList, h]

/-- A predicate that answers on every item filters them. -/
theorem filter_ofList {p : α → Except ε Bool} {keep : α → Bool} {l : List α}
    (h : ∀ a ∈ l, p a = .ok (keep a)) : (ofList l).filter p = ofList (l.filter keep) := by
  have hflat : l.filter keep = l.flatMap fun a => if keep a then [a] else [] := by
    clear h
    induction l with
    | nil => rfl
    | cons a l ih =>
        rw [List.filter_cons, List.flatMap_cons, ← ih]
        split <;> rfl
  rw [filter, bind_ofList, hflat]
  exact forEach_eq_ofList fun a ha => by rw [h a ha]

/-- A filter that returns was answered on every item. -/
theorem filter_eq_ofList_iff {p : α → Except ε Bool} {g : Gen ε α} {r : List α} :
    g.filter p = ofList r ↔ ∃ l, g = ofList l ∧ ∃ keep : α → Bool,
      (∀ a ∈ l, p a = .ok (keep a)) ∧ r = l.filter keep := by
  constructor
  · intro h
    obtain ⟨l, rfl, hloop⟩ := bind_eq_ofList_iff.mp h
    have hanswers : ∀ a ∈ l, ∃ b, p a = .ok b := by
      intro a ha
      have hbody := forall_of_forEach_eq_ofList hloop a ha
      rcases hp : p a with e | b
      · simp [hp, fail, ofList] at hbody
      · exact ⟨b, rfl⟩
    have hkeep : ∀ a ∈ l, p a = .ok (match p a with | .ok b => b | .error _ => false) := by
      intro a ha
      obtain ⟨b, hb⟩ := hanswers a ha
      rw [hb]
    refine ⟨l, rfl, _, hkeep, ?_⟩
    rw [filter_ofList hkeep] at h
    exact (Gen.mk.inj h).1.symm
  · rintro ⟨l, rfl, keep, hkeep, rfl⟩
    exact filter_ofList hkeep

/-- A filter that first asks another one. -/
theorem filter_filter_ofList {p p' : α → Except ε Bool} {keep : α → Bool} {l : List α}
    (h : ∀ a ∈ l, p' a = if keep a then p a else .ok false) :
    (ofList l).filter p' = (ofList (l.filter keep)).filter p := by
  rw [filter, filter, bind_ofList, bind_ofList]
  induction l with
  | nil => rfl
  | cons a l ih =>
      rw [forEach, ih fun a' ha' => h a' (List.mem_cons_of_mem _ ha'), h a List.mem_cons_self,
        List.filter_cons]
      rcases keep a with _ | _
      · rfl
      · rfl

/-- A map returns when the function does on every item. -/
theorem map_ofList_eq_iff {f : α → Except ε β} {l : List α} {r : List β} :
    (ofList l).map f = ofList r ↔ List.Forall₂ (fun a b => f a = .ok b) l r := by
  rw [map, bind_ofList]
  induction l generalizing r with
  | nil =>
      rw [List.forall₂_nil_left_iff]
      exact ⟨fun h => (Gen.mk.inj h).1.symm, fun h => by rw [h]; rfl⟩
  | cons a l ih =>
      rw [forEach, append_eq_ofList_iff]
      constructor
      · rintro ⟨l₁, l₂, hbody, hrest, rfl⟩
        rcases hf : f a with e | b
        · rw [hf] at hbody
          cases hbody
        · rw [hf] at hbody
          cases hbody
          exact List.Forall₂.cons hf (ih.mp hrest)
      · intro h
        cases h with
        | @cons _ b _ r hf hrest =>
            exact ⟨[b], r, by rw [hf]; rfl, ih.mpr hrest, rfl⟩

theorem map_ok_ofList (g : α → β) (l : List α) :
    (ofList l : Gen ε α).map (fun a => .ok (g a)) = ofList (l.map g) := by
  rw [map_ofList_eq_iff, List.forall₂_map_right_iff]
  exact List.forall₂_same.mpr fun _ _ => rfl

end Gen
