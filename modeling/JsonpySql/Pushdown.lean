/-
JsonpySql/Pushdown.lean

What the planner reads off a predicate is a necessary condition of it.

The planner looks at the first clause of a predicate: a comparison of a field
with a literal, or of a field between two.  Read with weak bounds
(`Lambda.screen`) this clause is true on exactly the documents that the lookup
or the range scan is meant to find (`Access.selects_iff`), and it is true
wherever the whole predicate is.
-/
import JsonpySql.Planner

/-! ### Comparisons of values without parts -/

namespace PyVal

variable {a b : PyScalar}

/-- What is ordered with a value without parts has no parts. -/
theorem exists_scalar_of_order_right {op : OrderOp} {v : PyVal} {r : Bool}
    (h : order op v (.scalar b) = .ok r) : ∃ s, v = .scalar s := by
  cases v with
  | scalar s => exact ⟨s, rfl⟩
  | list xs | dict es => cases h

theorem exists_scalar_of_order_left {op : OrderOp} {v : PyVal} {r : Bool}
    (h : order op (.scalar a) v = .ok r) : ∃ s, v = .scalar s := by
  cases v with
  | scalar s => exact ⟨s, rfl⟩
  | list xs | dict es => cases h

/-- Two values without parts that are ordered are strings or numbers. -/
theorem order_scalar_cases {op : OrderOp} {r : Bool}
    (h : order op (.scalar a) (.scalar b) = .ok r) :
    (∃ s t, a = .str s ∧ b = .str t) ∨
      ∃ x y, a.number? = some x ∧ b.number? = some y := by
  unfold order at h
  split at h
  · exact Or.inl ⟨_, _, rfl, rfl⟩
  · exact Or.inr ⟨_, _, ‹_›, ‹_›⟩
  · cases h

theorem order_number {op : OrderOp} {x y : PyNumber} (hx : a.number? = some x)
    (hy : b.number? = some y) : order op (.scalar a) (.scalar b) = .ok (x.order op y) := by
  unfold order
  split
  · cases hx
  · rename_i hx' hy'
    obtain rfl := Option.some.inj (hx'.symm.trans hx)
    obtain rfl := Option.some.inj (hy'.symm.trans hy)
    rfl
  · rename_i h
    exact (h x y hx hy).elim

theorem eq_scalar_comm : eq (.scalar a) (.scalar b) = eq (.scalar b) (.scalar a) := by
  simp only [eq, PyScalar.eq]
  rcases a.number? with _ | x <;> rcases b.number? with _ | y
  · exact decide_eq_decide.mpr eq_comm
  · exact decide_eq_decide.mpr eq_comm
  · exact decide_eq_decide.mpr eq_comm
  · by_cases h : x = y
    · rw [h]
    · simp [PyNumber.eq, h, Ne.symm h]

/-- With a value without parts, `==` does not depend on the order of its sides. -/
theorem eq_comm_scalar {v : PyVal} : eq (.scalar a) v = eq v (.scalar a) := by
  cases v with
  | scalar s => exact eq_scalar_comm
  | list xs | dict es => rfl

end PyVal

/-! ### Weak bounds -/

/-- The comparison with its bound included. -/
def OrderOp.weaken : OrderOp → OrderOp
  | .lt => .le
  | .gt => .ge
  | op => op

theorem OrderOp.holds_weaken {α : Type*} [LT α] [LE α] [DecidableLT α] [DecidableLE α]
    (hle : ∀ {a b : α}, a < b → a ≤ b) {op : OrderOp} {a b : α} (h : op.holds a b = true) :
    op.weaken.holds a b = true := by
  cases op with
  | lt | gt => exact decide_eq_true (hle (of_decide_eq_true h))
  | le | ge => exact h

theorem PyNumber.order_weaken {op : OrderOp} {x y : PyNumber} (h : x.order op y = true) :
    x.order op.weaken y = true := by
  cases x <;> cases y <;> first | exact OrderOp.holds_weaken le_of_lt h | exact h

mutual

/-- What is below is at most. -/
theorem PyVal.order_weaken {op : OrderOp} : ∀ {v w : PyVal}, v.order op w = .ok true →
    v.order op.weaken w = .ok true
  | .scalar a, .scalar b, h => by
      rcases order_scalar_cases h with ⟨s, t, rfl, rfl⟩ | ⟨x, y, hx, hy⟩
      · rw [order_str] at h ⊢
        exact congrArg _ (OrderOp.holds_weaken String.lt_asymm (Except.ok.inj h))
      · rw [order_number hx hy] at h ⊢
        exact congrArg _ (PyNumber.order_weaken (Except.ok.inj h))
  | .list xs, .list ys, h => by
      rw [order] at h ⊢
      exact orderList_weaken h
  | .scalar _, .list _, h | .scalar _, .dict _, h | .list _, .scalar _, h | .list _, .dict _, h
  | .dict _, .scalar _, h | .dict _, .list _, h | .dict _, .dict _, h => by cases h

theorem PyVal.orderList_weaken {op : OrderOp} : ∀ {xs ys : List PyVal},
    orderList op xs ys = .ok true → orderList op.weaken xs ys = .ok true
  | x :: xs, y :: ys, h => by
      rw [orderList] at h ⊢
      split at h
      · rw [if_pos ‹_›]
        exact orderList_weaken h
      · rw [if_neg ‹_›]
        exact order_weaken h
  | [], ys, h => by
      rw [orderList] at h ⊢
      · exact congrArg _ (OrderOp.holds_weaken Nat.le_of_lt (Except.ok.inj h))
      · nofun
      · nofun
  | x :: xs, [], h => by
      rw [orderList] at h ⊢
      · exact congrArg _ (OrderOp.holds_weaken Nat.le_of_lt (Except.ok.inj h))
      · nofun
      · nofun

end

namespace PyVal

variable {a b : PyScalar}

/-- A comparison of two values without parts, seen from the other side. -/
theorem order_ge_scalar (h : order .ge (.scalar a) (.scalar b) = .ok true ∨
      order .le (.scalar b) (.scalar a) = .ok true) :
    order .ge (.scalar a) (.scalar b) = order .le (.scalar b) (.scalar a) := by
  have hcases : (∃ s t, a = .str s ∧ b = .str t) ∨
      ∃ x y, a.number? = some x ∧ b.number? = some y := by
    rcases h with h | h
    · exact order_scalar_cases h
    · rcases order_scalar_cases h with ⟨s, t, hs, ht⟩ | ⟨x, y, hx, hy⟩
      · exact Or.inl ⟨t, s, ht, hs⟩
      · exact Or.inr ⟨y, x, hy, hx⟩
  rcases hcases with ⟨s, t, rfl, rfl⟩ | ⟨x, y, hx, hy⟩
  · rw [order_str, order_str]
    rfl
  · rw [order_number hx hy, order_number hy hx]
    cases x <;> cases y <;> rfl

/-- A comparison with a value without parts, seen from the other side. -/
theorem order_ge {v : PyVal} : v.order .ge (.scalar b) = .ok true ↔
    order .le (.scalar b) v = .ok true := by
  constructor
  · intro h
    obtain ⟨a, rfl⟩ := exists_scalar_of_order_right h
    exact order_ge_scalar (Or.inl h) ▸ h
  · intro h
    obtain ⟨a, rfl⟩ := exists_scalar_of_order_left h
    exact order_ge_scalar (Or.inr h) ▸ h

end PyVal

namespace JsonpySql

def CmpOp.weaken : CmpOp → CmpOp
  | .order op => .order op.weaken
  | op => op

theorem CmpOp.apply_weaken {op : CmpOp} {v w r : PyVal} (h : op.apply v w = .ok r)
    (hr : r.truthy = true) : ∃ r', op.weaken.apply v w = .ok r' ∧ r'.truthy = true := by
  cases op with
  | eq | notEq | other f => exact ⟨r, h, hr⟩
  | order op =>
      rw [apply] at h
      rcases hb : v.order op w with e | b
      · rw [hb] at h
        cases h
      · rw [hb] at h
        obtain rfl : PyVal.bool b = r := Except.ok.inj h
        obtain rfl : b = true := hr
        refine ⟨.bool true, ?_, rfl⟩
        rw [weaken, apply, PyVal.order_weaken hb]
        rfl

namespace PyExpr

/-- Read weakly: the bounds of a comparison are included. -/
def weaken : PyExpr → PyExpr
  | .compare left comparisons => .compare left (comparisons.map fun c => (c.1.weaken, c.2))
  | e => e

/-- The expression has a true value. -/
def Holds (names : String → Except PyErr PyVal) (e : PyExpr) : Prop :=
  ∃ v, e.eval names = .ok v ∧ v.truthy = true

/-- Every comparison of a chain holds. -/
def ChainHolds (names : String → Except PyErr PyVal) (v : PyVal) : List (CmpOp × PyExpr) → Prop
  | [] => True
  | (op, right) :: comparisons => ∃ w r, right.eval names = .ok w ∧ op.apply v w = .ok r ∧
      r.truthy = true ∧ ChainHolds names w comparisons

variable {names : String → Except PyErr PyVal}

/-- A chain with a true value is one whose comparisons all hold. -/
theorem chainHolds_iff (comparisons : List (CmpOp × PyExpr)) (v : PyVal) :
    (∃ u, evalComparisons names v comparisons = .ok u ∧ u.truthy = true) ↔
      ChainHolds names v comparisons := by
  induction comparisons generalizing v with
  | nil => exact ⟨fun _ => trivial, fun _ => ⟨.bool true, by rw [evalComparisons], rfl⟩⟩
  | cons c comparisons ih =>
      obtain ⟨op, right⟩ := c
      simp only [evalComparisons, bind_eq_ok_iff, ChainHolds]
      constructor
      · rintro ⟨u, ⟨w, hw, r, hr, hu⟩, htrue⟩
        split at hu
        · rename_i hstop
          obtain rfl : r = u := Except.ok.inj hu
          obtain rfl : comparisons = [] := by simpa [htrue] using hstop
          exact ⟨w, r, hw, hr, htrue, trivial⟩
        · rename_i hstop
          simp only [Bool.or_eq_true, not_or, Bool.not_eq_true, Bool.not_eq_false'] at hstop
          exact ⟨w, r, hw, hr, hstop.2, (ih w).mp ⟨u, hu, htrue⟩⟩
      · rintro ⟨w, r, hw, hr, htrue, hrest⟩
        obtain ⟨u, hu, hutrue⟩ := (ih w).mpr hrest
        rcases hempty : comparisons.isEmpty with _ | _
        · refine ⟨u, ⟨w, hw, r, hr, ?_⟩, hutrue⟩
          rw [htrue]
          exact hu
        · exact ⟨r, ⟨w, hw, r, hr, rfl⟩, htrue⟩

theorem holds_compare {left : PyExpr} {comparisons : List (CmpOp × PyExpr)} :
    (PyExpr.compare left comparisons).Holds names ↔
      ∃ v, left.eval names = .ok v ∧ ChainHolds names v comparisons := by
  simp only [Holds, eval, bind_eq_ok_iff, ← chainHolds_iff]
  constructor
  · rintro ⟨u, ⟨v, hv, hu⟩, htrue⟩
    exact ⟨v, hv, u, hu, htrue⟩
  · rintro ⟨v, hv, u, hu, htrue⟩
    exact ⟨u, ⟨v, hv, hu⟩, htrue⟩

theorem ChainHolds.weaken {comparisons : List (CmpOp × PyExpr)} {v : PyVal}
    (h : ChainHolds names v comparisons) :
    ChainHolds names v (comparisons.map fun c => (c.1.weaken, c.2)) := by
  induction comparisons generalizing v with
  | nil => trivial
  | cons c comparisons ih =>
      obtain ⟨w, r, hw, hr, htrue, hrest⟩ := h
      obtain ⟨r', hr', htrue'⟩ := CmpOp.apply_weaken hr htrue
      exact ⟨w, r', hw, hr', htrue', ih hrest⟩

/-- What holds still holds with weak bounds. -/
theorem Holds.weaken {e : PyExpr} (h : e.Holds names) : e.weaken.Holds names := by
  cases e with
  | compare left comparisons =>
      obtain ⟨v, hv, hchain⟩ := holds_compare.mp h
      exact holds_compare.mpr ⟨v, hv, hchain.weaken⟩
  | constant v => exact h
  | name id => exact h
  | subscript value slice => exact h
  | boolOp op values => exact h
  | unaryOp op operand => exact h
  | other value => exact h

/-- A conjunction holds only if its first clause does. -/
theorem Holds.firstClause {e : PyExpr} (h : e.Holds names) :
    (JsonpySql.firstClause e).Holds names := by
  unfold JsonpySql.firstClause
  split
  · rename_i clause clauses
    obtain ⟨v, hv, htrue⟩ := h
    rw [eval, evalBool, bind_eq_ok_iff] at hv
    obtain ⟨u, hu, hv⟩ := hv
    refine ⟨u, hu, ?_⟩
    split at hv
    · obtain rfl : u = v := Except.ok.inj hv
      exact htrue
    · -- a false clause would have ended the conjunction
      rename_i hgo
      simp_all
  · exact h

end PyExpr

variable {names : String → Except PyErr PyVal} {arg f : String} {indexed : List String} {d : Doc}

/-! ### What the pattern matchers match -/

/-- `arg['field']`. -/
def fieldExpr (arg field : String) : PyExpr := .subscript (.name arg) (.constant (.str field))

/-- The node is a literal with this value, and not `None`. -/
def IsLiteral (node : PyExpr) (v : PyVal) : Prop := extractLiteral node = .ok v ∧ v ≠ .none

/-- The planner may use an index on the field. -/
def Usable (indexed : List String) (f : String) : Prop := f ≠ "" ∧ f ∈ indexed

theorem indexedField_eq_some {node : PyExpr} (h : indexedField node arg indexed = some f) :
    node = fieldExpr arg f ∧ Usable indexed f := by
  obtain ⟨hfield, hmem⟩ := Option.filter_eq_some_iff.mp h
  refine ⟨?_, by simpa [Usable] using hmem⟩
  unfold extractSubscriptField at hfield
  split at hfield
  · split at hfield
    · rename_i hid
      rw [hid, Option.some.inj hfield]
      rfl
    · cases hfield
  · cases hfield

theorem fieldWithLiteral_eq_some {field : Option String} {node : PyExpr} {v : PyVal}
    (h : fieldWithLiteral field node = .ok (some (f, v))) :
    field = some f ∧ IsLiteral node v := by
  cases field with
  | none => cases h
  | some field =>
      rw [fieldWithLiteral, bind_eq_ok_iff] at h
      obtain ⟨value, hvalue, h⟩ := h
      split at h
      · cases h
      · rename_i hne
        cases h
        exact ⟨rfl, hvalue, hne⟩

/-- A literal has the value the planner reads off it, under any names. -/
theorem IsLiteral.eval {node : PyExpr} {v : PyVal} (h : IsLiteral node v)
    (names : String → Except PyErr PyVal) : node.eval names = .ok v ∧ ∃ s, v = .scalar s := by
  obtain ⟨h, hne⟩ := h
  unfold extractLiteral at h
  split at h
  · rename_i s
    cases h
    exact ⟨by rw [PyExpr.eval], s, rfl⟩
  · rename_i s
    refine ⟨by rw [PyExpr.eval, PyExpr.eval]; exact h, ?_⟩
    unfold PyVal.neg at h
    split at h <;> cases h <;> exact ⟨_, rfl⟩
  · cases h
    exact absurd rfl hne

/-- The value of `arg['field']`, where the argument is a document. -/
theorem eval_fieldExpr (harg : names arg = .ok (.dict d.entries)) {v : PyVal} :
    (fieldExpr arg f).eval names = .ok v ↔ d.get? f = some v := by
  constructor
  · intro h
    rcases hf : d.get? f with _ | w
    · have hlookup : d.entries.lookup f = none := hf
      simp [fieldExpr, PyExpr.eval, harg, ok_bind, PyVal.getItem, hlookup] at h
    · rw [fieldExpr, eval_field harg hf] at h
      exact congrArg some (Except.ok.inj h)
  · exact eval_field harg

/-- An equality the planner recognises. -/
theorem tryEquality_eq_some {node : PyExpr} {v : PyVal}
    (h : tryEquality node arg indexed = .ok (some (f, v))) :
    Usable indexed f ∧ ∃ literal, IsLiteral literal v ∧
      (node = .compare (fieldExpr arg f) [(.eq, literal)] ∨
        node = .compare literal [(.eq, fieldExpr arg f)]) := by
  unfold tryEquality at h
  split at h
  · rename_i left right
    rw [bind_eq_ok_iff] at h
    obtain ⟨first, hfirst, h⟩ := h
    rcases first with _ | result
    · obtain ⟨hfield, hlit⟩ := fieldWithLiteral_eq_some h
      obtain ⟨rfl, hmem⟩ := indexedField_eq_some hfield
      exact ⟨hmem, left, hlit, Or.inr rfl⟩
    · cases h
      obtain ⟨hfield, hlit⟩ := fieldWithLiteral_eq_some hfirst
      obtain ⟨rfl, hmem⟩ := indexedField_eq_some hfield
      exact ⟨hmem, right, hlit, Or.inl rfl⟩
  · cases h

/-- A range the planner recognises: `low <= x['f'] <= high`, `x['f'] >= low` or
`x['f'] <= high`, each with weak or strict bounds. -/
theorem tryRange_eq_some {node : PyExpr} {low high : PyVal}
    (h : tryRange node arg indexed = .ok (some (f, low, high))) :
    Usable indexed f ∧
      ((∃ left right op₀ op₁, IsLiteral left low ∧ IsLiteral right high ∧
          OrderOp.weaken op₀ = .le ∧ OrderOp.weaken op₁ = .le ∧
          node = .compare left [(.order op₀, fieldExpr arg f), (.order op₁, right)]) ∨
        ∃ right op v, IsLiteral right v ∧
          node = .compare (fieldExpr arg f) [(.order op, right)] ∧
          (op.weaken = .ge ∧ low = v ∧ high = .none ∨
            op.weaken = .le ∧ low = .none ∧ high = v)) := by
  unfold tryRange at h
  split at h
  · rename_i left op₀ middle op₁ right
    simp only [bind_eq_ok_iff] at h
    obtain ⟨leftVal, hleft, rightVal, hright, h⟩ := h
    split at h
    · cases h
    rename_i field hfield
    obtain ⟨rfl, hmem⟩ := indexedField_eq_some hfield
    split at h
    · cases h
    rename_i hne
    rw [not_or] at hne
    split at h
    all_goals cases h
    all_goals
      exact ⟨hmem, Or.inl ⟨left, right, _, _, ⟨hleft, hne.1⟩, ⟨hright, hne.2⟩, rfl, rfl, rfl⟩⟩
  · rename_i left op right
    rw [bind_eq_ok_iff] at h
    obtain ⟨bound, hbound, h⟩ := h
    split at h
    · cases h
    obtain ⟨hfield, hlit⟩ := fieldWithLiteral_eq_some hbound
    obtain ⟨rfl, hmem⟩ := indexedField_eq_some hfield
    split at h
    all_goals cases h
    · exact ⟨hmem, Or.inr ⟨right, _, _, hlit, rfl, Or.inl ⟨rfl, rfl, rfl⟩⟩⟩
    · exact ⟨hmem, Or.inr ⟨right, _, _, hlit, rfl, Or.inl ⟨rfl, rfl, rfl⟩⟩⟩
    · exact ⟨hmem, Or.inr ⟨right, _, _, hlit, rfl, Or.inr ⟨rfl, rfl, rfl⟩⟩⟩
    · exact ⟨hmem, Or.inr ⟨right, _, _, hlit, rfl, Or.inr ⟨rfl, rfl, rfl⟩⟩⟩
  · cases h

/-! ### What a plan selects -/

/-- A document a plan is meant to find: its field has the value, or lies between
the bounds. -/
def Access.Selects (access : Access) (d : Doc) : Prop :=
  match access.scanType, access.indexField with
  | .indexLookup, some f => ∃ x, d.get? f = some x ∧ x.eq access.indexValue = true
  | .rangeScan, some f => ∃ x, d.get? f = some x ∧
      (access.indexLow = .none ∨ access.indexLow.order .le x = .ok true) ∧
      (access.indexHigh = .none ∨ x.order .le access.indexHigh = .ok true)
  | _, _ => True

/-- The lambda returns a true value. -/
def Lambda.Accepts (l : Lambda) (d : Doc) : Prop := ∃ v, l.call d = .ok v ∧ v.truthy = true

/-- What the planner sees of a lambda: its first clause, read weakly. -/
def Lambda.screen (l : Lambda) : Lambda := { l with body := (firstClause l.body).weaken }

theorem Lambda.accepts_iff {l : Lambda} (harg : l.args = [arg]) : l.Accepts d ↔
    l.body.Holds fun id => if id = arg then .ok (.dict d.entries) else l.scope id := by
  rw [Accepts, call, harg]
  rfl

/-- The screen lets through what the lambda accepts. -/
theorem Lambda.Accepts.screen {l : Lambda} (h : l.Accepts d) : l.screen.Accepts d := by
  rcases hargs : l.args with _ | ⟨arg, _ | ⟨arg', args⟩⟩
  · obtain ⟨v, hv, -⟩ := h
    rw [call, hargs] at hv
    cases hv
  · rw [accepts_iff hargs] at h
    exact (accepts_iff (l := l.screen) hargs).mpr h.firstClause.weaken
  · obtain ⟨v, hv, -⟩ := h
    rw [call, hargs] at hv
    cases hv

/-- What the planner can make of a predicate. -/
theorem parsePredicate_cases {fn : Callable} {access : Access}
    (h : parsePredicate fn indexed = .ok access) :
    access = .fail ∨ ∃ lam arg, fn.source = some lam ∧ lam.args = [arg] ∧
      ((∃ f v, tryEquality (firstClause lam.body) arg indexed = .ok (some (f, v)) ∧
          access = ⟨.indexLookup, some f, v, .none, .none⟩) ∨
        ∃ f low high, tryRange (firstClause lam.body) arg indexed = .ok (some (f, low, high)) ∧
          access = ⟨.rangeScan, some f, .none, low, high⟩) := by
  unfold parsePredicate at h
  split at h
  · cases h
    exact Or.inl rfl
  rename_i lam hsource
  split at h
  · rename_i arg hargs
    rw [bind_eq_ok_iff] at h
    obtain ⟨eqn, heqn, h⟩ := h
    rcases eqn with _ | ⟨f, v⟩
    · rw [bind_eq_ok_iff] at h
      obtain ⟨range, hrange, h⟩ := h
      rcases range with _ | ⟨f, low, high⟩
      · cases h
        exact Or.inl rfl
      · cases h
        exact Or.inr ⟨lam, arg, hsource, hargs, Or.inr ⟨f, low, high, hrange, rfl⟩⟩
    · cases h
      exact Or.inr ⟨lam, arg, hsource, hargs, Or.inl ⟨f, v, heqn, rfl⟩⟩
  · cases h
    exact Or.inl rfl

/-- A comparison has a true value when it answers yes. -/
theorem exists_apply_order {op : OrderOp} {a b : PyVal} :
    (∃ r, (CmpOp.order op).apply a b = .ok r ∧ r.truthy = true) ↔ a.order op b = .ok true := by
  rw [CmpOp.apply]
  rcases a.order op b with e | r
  · exact ⟨fun ⟨_, h, _⟩ => (nomatch h), nofun⟩
  · constructor
    · rintro ⟨_, h, htrue⟩
      cases h
      exact congrArg _ htrue
    · intro h
      cases h
      exact ⟨.bool true, rfl, rfl⟩

section Selects

variable (harg : names arg = .ok (.dict d.entries))
include harg

/-- An equality holds of the documents a lookup is meant to find. -/
theorem holds_equality_iff {node : PyExpr} {v : PyVal}
    (h : tryEquality node arg indexed = .ok (some (f, v))) :
    node.weaken.Holds names ↔ ∃ x, d.get? f = some x ∧ x.eq v = true := by
  obtain ⟨-, literal, hlit, hnode⟩ := tryEquality_eq_some h
  obtain ⟨hvalue, s, rfl⟩ := hlit.eval names
  rcases hnode with rfl | rfl
  · refine PyExpr.holds_compare.trans (exists_congr fun x => ?_)
    rw [eval_fieldExpr harg]
    refine and_congr_right fun _ => ?_
    constructor
    · rintro ⟨w, r, hw, hr, htrue, -⟩
      rw [hvalue] at hw
      cases hw; cases hr
      exact htrue
    · intro heq
      exact ⟨_, _, hvalue, rfl, heq, trivial⟩
  · refine PyExpr.holds_compare.trans ?_
    constructor
    · rintro ⟨w, hw, x, r, hx, hr, htrue, -⟩
      rw [hvalue] at hw
      cases hw; cases hr
      exact ⟨x, (eval_fieldExpr harg).mp hx, PyVal.eq_comm_scalar ▸ htrue⟩
    · rintro ⟨x, hx, heq⟩
      exact ⟨_, hvalue, x, _, (eval_fieldExpr harg).mpr hx, rfl,
        PyVal.eq_comm_scalar.trans heq, trivial⟩

/-- A field compared with a literal. -/
theorem holds_bound_iff {op : OrderOp} {right : PyExpr} {v : PyVal} (hlit : IsLiteral right v) :
    (PyExpr.compare (fieldExpr arg f) [(.order op, right)]).Holds names ↔
      ∃ x, d.get? f = some x ∧ x.order op v = .ok true := by
  obtain ⟨hvalue, -⟩ := hlit.eval names
  refine PyExpr.holds_compare.trans (exists_congr fun x => ?_)
  rw [eval_fieldExpr harg, ← exists_apply_order]
  refine and_congr_right fun _ => ?_
  constructor
  · rintro ⟨w, r, hw, hr, htrue, -⟩
    rw [hvalue] at hw
    cases hw
    exact ⟨r, hr, htrue⟩
  · rintro ⟨r, hr, htrue⟩
    exact ⟨v, r, hvalue, hr, htrue, trivial⟩

/-- A field between two literals. -/
theorem holds_between_iff {left right : PyExpr} {low high : PyVal} (hleft : IsLiteral left low)
    (hright : IsLiteral right high) :
    (PyExpr.compare left [(.order .le, fieldExpr arg f), (.order .le, right)]).Holds names ↔
      ∃ x, d.get? f = some x ∧ low.order .le x = .ok true ∧ x.order .le high = .ok true := by
  obtain ⟨hlow, -⟩ := hleft.eval names
  obtain ⟨hhigh, -⟩ := hright.eval names
  simp only [← exists_apply_order]
  refine PyExpr.holds_compare.trans ?_
  constructor
  · rintro ⟨a, ha, x, r, hx, hr, htrue, b, r', hb, hr', htrue', -⟩
    rw [hlow] at ha
    rw [hhigh] at hb
    cases ha; cases hb
    exact ⟨x, (eval_fieldExpr harg).mp hx, ⟨r, hr, htrue⟩, r', hr', htrue'⟩
  · rintro ⟨x, hx, ⟨r, hr, htrue⟩, r', hr', htrue'⟩
    exact ⟨low, hlow, x, r, (eval_fieldExpr harg).mpr hx, hr, htrue, high, r', hhigh, hr', htrue',
      trivial⟩

/-- A range holds weakly of the documents a range scan is meant to find. -/
theorem holds_range_iff {node : PyExpr} {low high : PyVal}
    (h : tryRange node arg indexed = .ok (some (f, low, high))) :
    node.weaken.Holds names ↔ ∃ x, d.get? f = some x ∧
      (low = .none ∨ low.order .le x = .ok true) ∧
      (high = .none ∨ x.order .le high = .ok true) := by
  obtain ⟨-, ⟨left, right, op₀, op₁, hleft, hright, h₀, h₁, rfl⟩ |
    ⟨right, op, v, hright, rfl, hop⟩⟩ := tryRange_eq_some h
  · show (PyExpr.compare left
      [(.order op₀.weaken, fieldExpr arg f), (.order op₁.weaken, right)]).Holds names ↔ _
    rw [h₀, h₁, holds_between_iff harg hleft hright]
    simp only [or_iff_right hleft.2, or_iff_right hright.2]
  · show (PyExpr.compare (fieldExpr arg f) [(.order op.weaken, right)]).Holds names ↔ _
    obtain ⟨-, s, rfl⟩ := hright.eval names
    rw [holds_bound_iff harg hright]
    rcases hop with ⟨hop, rfl, rfl⟩ | ⟨hop, rfl, rfl⟩
    · simp only [hop, or_iff_right hright.2, PyVal.order_ge, true_or, and_true]
    · simp only [hop, or_iff_right hright.2, true_or, true_and]

end Selects

/-- **A plan selects what the screen lets through**, where it uses an index. -/
theorem Access.selects_iff {fn : Callable} {access : Access} {lam : Lambda}
    (h : parsePredicate fn indexed = .ok access) (hsource : fn.source = some lam)
    (hindex : access ≠ .fail) : access.Selects d ↔ lam.screen.Accepts d := by
  obtain rfl | ⟨lam', arg, hsource', hargs, hcases⟩ := parsePredicate_cases h
  · exact absurd rfl hindex
  obtain rfl : lam' = lam := Option.some.inj (hsource'.symm.trans hsource)
  rw [Lambda.accepts_iff (l := lam'.screen) hargs]
  have harg : (fun id => if id = arg then .ok (.dict d.entries) else lam'.scope id) arg =
      (.ok (.dict d.entries) : Except PyErr PyVal) := if_pos rfl
  rcases hcases with ⟨f, v, heqn, rfl⟩ | ⟨f, low, high, hrange, rfl⟩
  · exact (holds_equality_iff harg heqn).symm
  · exact (holds_range_iff harg hrange).symm

/-- The field of a plan is indexed. -/
theorem Access.indexed_of_parsePredicate {fn : Callable} {access : Access}
    (h : parsePredicate fn indexed = .ok access) :
    access.scanType ≠ .fullScan → ∃ f ∈ indexed, access.indexField = some f := by
  intro hscan
  obtain rfl | ⟨lam, arg, -, -, hcases⟩ := parsePredicate_cases h
  · exact absurd rfl hscan
  rcases hcases with ⟨f, v, heqn, rfl⟩ | ⟨f, low, high, hrange, rfl⟩
  · exact ⟨f, (tryEquality_eq_some heqn).1.2, rfl⟩
  · exact ⟨f, (tryRange_eq_some hrange).1.2, rfl⟩

/-- **Pushdown is sound.**  A plan that uses an index uses one that is there, and
wherever the lambda is true the field has the value of the lookup, or lies
between the bounds of the range scan. -/
theorem parsePredicate_sound (lam : Lambda) (indexed : List String) (access : Access)
    (h : parsePredicate lam.toCallable indexed = .ok access) :
    (access.scanType = .indexLookup → ∃ f ∈ indexed, access.indexField = some f ∧
      ∀ d v, lam.call d = .ok v → v.truthy = true →
        ∃ x, d.get? f = some x ∧ x.eq access.indexValue = true) ∧
    (access.scanType = .rangeScan → ∃ f ∈ indexed, access.indexField = some f ∧
      ∀ d v, lam.call d = .ok v → v.truthy = true →
        ∃ x, d.get? f = some x ∧
          (access.indexLow = .none ∨ access.indexLow.order .le x = .ok true) ∧
          (access.indexHigh = .none ∨ x.order .le access.indexHigh = .ok true)) := by
  -- an index that is used is there, and selects what the lambda accepts
  have huses : access.scanType ≠ .fullScan → ∃ f ∈ indexed, access.indexField = some f ∧
      ∀ d v, lam.call d = .ok v → v.truthy = true → access.Selects d := by
    intro hscan
    have hindex : access ≠ .fail := fun hfail => hscan (congrArg Access.scanType hfail)
    obtain ⟨f, hmem, hfield⟩ := Access.indexed_of_parsePredicate h hscan
    exact ⟨f, hmem, hfield, fun d v hv htrue =>
      (Access.selects_iff h rfl hindex).mpr (Lambda.Accepts.screen ⟨v, hv, htrue⟩)⟩
  refine ⟨fun hscan => ?_, fun hscan => ?_⟩
  · obtain ⟨f, hmem, hfield, hselects⟩ := huses (by rw [hscan]; nofun)
    refine ⟨f, hmem, hfield, fun d v hv htrue => ?_⟩
    have hd := hselects d v hv htrue
    rwa [Access.Selects, hscan, hfield] at hd
  · obtain ⟨f, hmem, hfield, hselects⟩ := huses (by rw [hscan]; nofun)
    refine ⟨f, hmem, hfield, fun d v hv htrue => ?_⟩
    have hd := hselects d v hv htrue
    rwa [Access.Selects, hscan, hfield] at hd

/-- A strict bound, the first of two clauses. -/
theorem parsePredicate_sound_adult :
    let adult : Lambda := ⟨["x"], .boolOp .and
      [.compare (fieldExpr "x" "age") [(.order .gt, .constant (.int 17))],
        .compare (fieldExpr "x" "name") [(.notEq, .constant (.str ""))]], fun id =>
      .error (.keyError id)⟩
    ∃ f ∈ ["age"], f = "age" ∧ ∀ d v, adult.call d = .ok v → v.truthy = true →
      ∃ x, d.get? f = some x ∧ (PyVal.int 17).order .le x = .ok true := by
  intro adult
  obtain ⟨f, hmem, hfield, h⟩ := (parsePredicate_sound adult ["age"]
    ⟨.rangeScan, some "age", .none, .int 17, .none⟩ rfl).2 rfl
  refine ⟨f, hmem, (Option.some.inj hfield).symm, fun d v hv htrue => ?_⟩
  obtain ⟨x, hx, hlow, -⟩ := h d v hv htrue
  exact ⟨x, hx, hlow.resolve_left (by decide)⟩

end JsonpySql
