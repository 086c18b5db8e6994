/-
JsonpySql/Sorting.lean

Ordering the rows of a query.

The sort key of a document is whether it lacks a value, and then the value, so
that documents without one come last.  A descending sort reverses the whole key,
and with it this part: they come first (`sort_nullsLast_iff`).
-/
import Mathlib.Data.Prod.Lex
import Mathlib.Algebra.Order.Ring.Rat
import JsonpySql.Pipeline
import JsonpySql.Pushdown

namespace JsonpySql

open QueryExecutor

/-! ### Comparable values -/

/-- `<` is a weak order of the values, and those that tie are equal. -/
structure MutuallyComparable (values : List PyVal) : Prop where
  answers : ∀ v ∈ values, ∀ w ∈ values, ∃ b, v.order .lt w = .ok b
  asymm : ∀ v ∈ values, ∀ w ∈ values, v.order .lt w = .ok true → w.order .lt v = .ok false
  negTrans : ∀ u ∈ values, ∀ v ∈ values, ∀ w ∈ values, u.order .lt v = .ok false →
    v.order .lt w = .ok false → u.order .lt w = .ok false
  tie : ∀ v ∈ values, ∀ w ∈ values, v.eq w = true ↔
    v.order .lt w = .ok false ∧ w.order .lt v = .ok false

/-- Where a number stands among all: the infinite ones are the outermost. -/
def PyNumber.position : PyNumber → ℤ ×ₗ ℚ
  | .rat q => toLex (0, q)
  | x => toLex (x.rank, 0)

theorem PyNumber.order_lt_iff {x y : PyNumber} (hx : x ≠ .nan) (hy : y ≠ .nan) :
    x.order .lt y = true ↔ PyNumber.position x < PyNumber.position y := by
  rcases x with p | s | _
  · rcases y with q | t | _
    · simp [PyNumber.order, OrderOp.holds, PyNumber.position, Prod.Lex.toLex_lt_toLex]
    · cases t <;>
        simp [PyNumber.order, OrderOp.holds, PyNumber.position, PyNumber.rank,
          Prod.Lex.toLex_lt_toLex]
    · exact absurd rfl hy
  · rcases y with q | t | _
    · cases s <;>
        simp [PyNumber.order, OrderOp.holds, PyNumber.position, PyNumber.rank,
          Prod.Lex.toLex_lt_toLex]
    · cases s <;> cases t <;>
        simp [PyNumber.order, OrderOp.holds, PyNumber.position, PyNumber.rank,
          Prod.Lex.toLex_lt_toLex]
    · exact absurd rfl hy
  · exact absurd rfl hx

theorem PyNumber.position_inj {x y : PyNumber} (hx : x ≠ .nan) (hy : y ≠ .nan) :
    PyNumber.position x = PyNumber.position y ↔ x = y := by
  rcases x with p | s | _
  · rcases y with q | t | _
    · simp [PyNumber.position]
    · cases t <;> simp [PyNumber.position, PyNumber.rank]
    · exact absurd rfl hy
  · rcases y with q | t | _
    · cases s <;> simp [PyNumber.position, PyNumber.rank]
    · cases s <;> cases t <;> simp [PyNumber.position, PyNumber.rank]
    · exact absurd rfl hy
  · exact absurd rfl hx

/-- The value is a number, and not a NaN. -/
def IsNumber (v : PyVal) : Prop := ∃ s x, v = .scalar s ∧ s.number? = some x ∧ x ≠ .nan

/-- Numbers are mutually comparable, the NaNs left out. -/
theorem mutuallyComparable_number {values : List PyVal} (h : ∀ v ∈ values, IsNumber v) :
    MutuallyComparable values where
  answers := by
    intro v hv w hw
    obtain ⟨⟨s, x, rfl, hx, -⟩, t, y, rfl, hy, -⟩ := And.intro (h v hv) (h w hw)
    exact ⟨_, PyVal.order_number hx hy⟩
  asymm := by
    intro v hv w hw
    obtain ⟨⟨s, x, rfl, hx, hxn⟩, t, y, rfl, hy, hyn⟩ := And.intro (h v hv) (h w hw)
    rw [PyVal.order_number hx hy, PyVal.order_number hy hx, Except.ok.injEq, Except.ok.injEq,
      ← Bool.not_eq_true, PyNumber.order_lt_iff hxn hyn, PyNumber.order_lt_iff hyn hxn]
    exact lt_asymm
  negTrans := by
    intro u hu v hv w hw
    obtain ⟨⟨s, x, rfl, hx, hxn⟩, ⟨t, y, rfl, hy, hyn⟩, r, z, rfl, hz, hzn⟩ :=
      And.intro (h u hu) (And.intro (h v hv) (h w hw))
    rw [PyVal.order_number hx hy, PyVal.order_number hy hz, PyVal.order_number hx hz,
      Except.ok.injEq, Except.ok.injEq, Except.ok.injEq, ← Bool.not_eq_true, ← Bool.not_eq_true,
      ← Bool.not_eq_true, PyNumber.order_lt_iff hxn hyn, PyNumber.order_lt_iff hyn hzn,
      PyNumber.order_lt_iff hxn hzn, not_lt, not_lt, not_lt]
    exact fun hyx hzy => le_trans hzy hyx
  tie := by
    intro v hv w hw
    obtain ⟨⟨s, x, rfl, hx, hxn⟩, t, y, rfl, hy, hyn⟩ := And.intro (h v hv) (h w hw)
    have heq : (PyVal.scalar s).eq (.scalar t) = true ↔ x = y := by
      rw [PyVal.eq, PyScalar.eq, hx, hy]
      simp [PyNumber.eq, hxn]
    rw [PyVal.order_number hx hy, PyVal.order_number hy hx, Except.ok.injEq, Except.ok.injEq, heq,
      ← Bool.not_eq_true, ← Bool.not_eq_true, PyNumber.order_lt_iff hxn hyn,
      PyNumber.order_lt_iff hyn hxn, not_lt, not_lt, ← PyNumber.position_inj hxn hyn,
      le_antisymm_iff, and_comm]

theorem MutuallyComparable.irrefl {values : List PyVal} (h : MutuallyComparable values) {v : PyVal}
    (hv : v ∈ values) : v.order .lt v = .ok false := by
  obtain ⟨b, hb⟩ := h.answers v hv v hv
  cases b with
  | true => exact h.asymm v hv v hv hb
  | false => exact hb

/-! ### The sort key -/

/-- The values of a field that are there. -/
def presentValues (field : String) (docs : List Doc) : List PyVal :=
  (docs.map fun d => d.get field).filter (· ≠ .none)

/-- The document has a value in the field. -/
def hasValue (field : String) (d : Doc) : Bool := d.get field ≠ .none

/-- What `keyBelow` answers. -/
def keyLess (field : String) (a b : Doc) : Bool :=
  hasValue field a && (!hasValue field b || (a.get field).order .lt (b.get field) = .ok true)

section Key

variable {field : String} {docs : List Doc} {a b : Doc}

theorem mem_presentValues (ha : a ∈ docs) (h : hasValue field a = true) :
    a.get field ∈ presentValues field docs :=
  List.mem_filter.mpr ⟨List.mem_map_of_mem ha, h⟩

theorem keyLess_eq_true_iff (ha : hasValue field a = true) (hb : hasValue field b = true) :
    keyLess field a b = true ↔ (a.get field).order .lt (b.get field) = .ok true := by
  simp [keyLess, ha, hb]

theorem keyLess_eq_false_iff (hcomp : MutuallyComparable (presentValues field docs))
    (hamem : a ∈ docs) (hbmem : b ∈ docs) (ha : hasValue field a = true)
    (hb : hasValue field b = true) :
    keyLess field a b = false ↔ (a.get field).order .lt (b.get field) = .ok false := by
  obtain ⟨r, hr⟩ := hcomp.answers _ (mem_presentValues hamem ha) _ (mem_presentValues hbmem hb)
  rw [← Bool.not_eq_true, keyLess_eq_true_iff ha hb, hr]
  cases r <;> simp

/-- The comparison of the keys answers. -/
theorem keyBelow_eq (hcomp : MutuallyComparable (presentValues field docs)) (hamem : a ∈ docs)
    (hbmem : b ∈ docs) : keyBelow field a b = .ok (keyLess field a b) := by
  by_cases ha : a.get field = .none
  · simp [keyBelow, keyLess, hasValue, ha]
  by_cases hb : b.get field = .none
  · simp [keyBelow, keyLess, hasValue, ha, hb]
  have ha' : hasValue field a = true := by simpa [hasValue] using ha
  have hb' : hasValue field b = true := by simpa [hasValue] using hb
  have hva := mem_presentValues hamem ha'
  have hvb := mem_presentValues hbmem hb'
  rw [keyBelow]
  split
  · exact absurd ‹a.get field = .none› ha
  · exact absurd ‹b.get field = .none› hb
  split
  · -- the keys are equal
    rename_i hsame
    have hfalse : (a.get field).order .lt (b.get field) = .ok false := by
      rcases hsame with hsame | hsame
      · rw [← hsame]
        exact hcomp.irrefl hva
      · exact ((hcomp.tie _ hva _ hvb).mp hsame).1
    rw [(keyLess_eq_false_iff hcomp hamem hbmem ha' hb').mpr hfalse]
  · obtain ⟨r, hr⟩ := hcomp.answers _ hva _ hvb
    have hless : keyLess field a b = r := by
      cases r with
      | true => exact (keyLess_eq_true_iff ha' hb').mpr hr
      | false => exact (keyLess_eq_false_iff hcomp hamem hbmem ha' hb').mpr hr
    rw [compareValues, hr, hless]
    rfl

theorem keyLess_weakOrder (hcomp : MutuallyComparable (presentValues field docs)) :
    StableSort.WeakOrder (keyLess field) docs where
  asymm := by
    intro a hamem b hbmem h
    rcases hb : hasValue field b with _ | _
    · simp [keyLess, hb]
    have ha : hasValue field a = true := (Bool.and_eq_true_iff.mp h).1
    rw [keyLess_eq_true_iff ha hb] at h
    rw [keyLess_eq_false_iff hcomp hbmem hamem hb ha]
    exact hcomp.asymm _ (mem_presentValues hamem ha) _ (mem_presentValues hbmem hb) h
  negTrans := by
    intro a hamem b hbmem c hcmem hab hbc
    rcases ha : hasValue field a with _ | _
    · simp [keyLess, ha]
    rcases hb : hasValue field b with _ | _
    · simp [keyLess, ha, hb] at hab
    rcases hc : hasValue field c with _ | _
    · simp [keyLess, hb, hc] at hbc
    rw [keyLess_eq_false_iff hcomp hamem hbmem ha hb] at hab
    rw [keyLess_eq_false_iff hcomp hbmem hcmem hb hc] at hbc
    rw [keyLess_eq_false_iff hcomp hamem hcmem ha hc]
    exact hcomp.negTrans _ (mem_presentValues hamem ha) _ (mem_presentValues hbmem hb) _
      (mem_presentValues hcmem hc) hab hbc

end Key

/-! ### Nulls last -/

/-- The sorted documents are those with a value, in order and those with equal
values in their old order, and after them those without. -/
def SortedNullsLast (field : String) (descending : Bool) (docs sorted : List Doc) : Prop :=
  ∃ front, sorted = front ++ docs.filter (fun d => !hasValue field d) ∧
    front.Perm (docs.filter (hasValue field)) ∧
    (front.Pairwise fun a b =>
      if descending then (a.get field).order .lt (b.get field) = .ok false
      else (b.get field).order .lt (a.get field) = .ok false) ∧
    ∀ d ∈ docs, hasValue field d = true →
      front.filter (fun a => (a.get field).eq (d.get field)) =
        (docs.filter (hasValue field)).filter fun a => (a.get field).eq (d.get field)

section NullsLast

variable {field : String} {descending : Bool} {docs sorted : List Doc}

/-- Documents with equal values tie, and so do those without a value. -/
theorem keyLess_ties (hcomp : MutuallyComparable (presentValues field docs)) {d : Doc}
    (hd : d ∈ docs) (hvalue : hasValue field d = true) {a b : Doc} (ha : a ∈ docs) (hb : b ∈ docs)
    (hpa : (hasValue field a && (a.get field).eq (d.get field)) = true)
    (hpb : (hasValue field b && (b.get field).eq (d.get field)) = true) :
    keyLess field a b = false := by
  obtain ⟨hva, hea⟩ := Bool.and_eq_true_iff.mp hpa
  obtain ⟨hvb, heb⟩ := Bool.and_eq_true_iff.mp hpb
  have hma := mem_presentValues ha hva
  have hmb := mem_presentValues hb hvb
  have hmd := mem_presentValues hd hvalue
  rw [keyLess_eq_false_iff hcomp ha hb hva hvb]
  exact hcomp.negTrans _ hma _ hmd _ hmb ((hcomp.tie _ hma _ hmd).mp hea).1
    ((hcomp.tie _ hmb _ hmd).mp heb).2

/-- A stable sort that leaves the documents with a value in front. -/
theorem sortedNullsLast_of_stableSorted (hcomp : MutuallyComparable (presentValues field docs))
    (hsorted : StableSort.StableSorted
      (if descending then fun a b => keyLess field b a else keyLess field) docs sorted)
    (hsplit : sorted = sorted.filter (hasValue field) ++ sorted.filter fun d => !hasValue field d) :
    SortedNullsLast field descending docs sorted := by
  have hmem : ∀ d ∈ sorted, d ∈ docs := fun d hd => hsorted.perm.mem_iff.mp hd
  have hnulls : sorted.filter (fun d => !hasValue field d) =
      docs.filter fun d => !hasValue field d := by
    refine hsorted.stable _ fun a _ b _ ha hb => ?_
    have ha : hasValue field a = false := by simpa using ha
    have hb : hasValue field b = false := by simpa using hb
    cases descending <;> simp [keyLess, ha, hb]
  refine ⟨sorted.filter (hasValue field), by rw [← hnulls]; exact hsplit,
    hsorted.perm.filter _, ?_, fun d hd hvalue => ?_⟩
  · refine (hsorted.pairwise.sublist List.filter_sublist).imp_of_mem fun {a b} ha hb hab => ?_
    obtain ⟨ha, hva⟩ := List.mem_filter.mp ha
    obtain ⟨hb, hvb⟩ := List.mem_filter.mp hb
    cases descending with
    | true => exact (keyLess_eq_false_iff hcomp (hmem a ha) (hmem b hb) hva hvb).mp hab
    | false => exact (keyLess_eq_false_iff hcomp (hmem b hb) (hmem a ha) hvb hva).mp hab
  · rw [List.filter_filter, List.filter_filter]
    have hcomm : ∀ l : List Doc, l.filter (fun a => (a.get field).eq (d.get field) &&
        hasValue field a) = l.filter fun a => hasValue field a &&
          (a.get field).eq (d.get field) := fun l =>
      List.filter_congr fun a _ => Bool.and_comm _ _
    rw [hcomm, hcomm]
    refine hsorted.stable _ fun a ha b hb hpa hpb => ?_
    cases descending with
    | true => exact keyLess_ties hcomp hd hvalue hb ha hpb hpa
    | false => exact keyLess_ties hcomp hd hvalue ha hb hpa hpb

/-- **Nulls are last** in an ascending order, and in a descending one only where
all documents have a value or none has. -/
theorem sort_nullsLast_iff (field : String) (descending : Bool) (docs : List Doc)
    (hcomp : MutuallyComparable (presentValues field docs)) :
    ∃ sorted, sort (.ofList docs) field descending = .ofList sorted ∧ sorted.Perm docs ∧
      (SortedNullsLast field descending docs sorted ↔
        descending = false ∨ (∀ d ∈ docs, d.get field ≠ .none) ∨
          ∀ d ∈ docs, d.get field = .none) := by
  obtain ⟨sorted, hsort, hsorted⟩ := StableSort.sort_stableSorted
    (fun a ha b hb => keyBelow_eq hcomp ha hb) (keyLess_weakOrder hcomp) descending
  have hrun : sort (.ofList docs) field descending = .ofList sorted := by
    show Gen.ofExcept (sortDocs field descending docs) = _
    rw [sortDocs, hsort]
    rfl
  refine ⟨sorted, hrun, hsorted.perm, ?_, ?_⟩
  · rintro ⟨front, rfl, hfront, -, -⟩
    rcases descending with _ | _
    · exact Or.inl rfl
    right
    by_contra hmixed
    rw [not_or] at hmixed
    -- a document with a value is before one without
    obtain ⟨⟨b, hb, hnone⟩, a, ha, hvalue⟩ : (∃ b ∈ docs, b.get field = .none) ∧
        ∃ a ∈ docs, a.get field ≠ .none := by
      simpa using hmixed
    have ha' : a ∈ front := hfront.mem_iff.mpr (List.mem_filter.mpr ⟨ha, by simpa [hasValue]⟩)
    have hb' : b ∈ docs.filter fun d => !hasValue field d :=
      List.mem_filter.mpr ⟨hb, by simp [hasValue, hnone]⟩
    have hless := (List.pairwise_append.mp hsorted.pairwise).2.2 a ha' b hb'
    simp [keyLess, hasValue, hvalue, hnone] at hless
  · rintro (rfl | hall | hall)
    · refine sortedNullsLast_of_stableSorted hcomp hsorted ?_
      refine StableSort.eq_filter_append_filter (hsorted.pairwise.imp fun {a b} hab hb => ?_)
      rcases ha : hasValue field a with _ | _
      · simp [keyLess, ha, hb] at hab
      · rfl
    · refine sortedNullsLast_of_stableSorted hcomp hsorted ?_
      have hvalue : ∀ d ∈ sorted, hasValue field d = true := fun d hd => by
        simpa [hasValue] using hall d (hsorted.perm.mem_iff.mp hd)
      rw [List.filter_eq_self.mpr hvalue, List.filter_eq_nil_iff.mpr fun d hd => by
        simp [hvalue d hd], List.append_nil]
    · refine sortedNullsLast_of_stableSorted hcomp hsorted ?_
      have hvalue : ∀ d ∈ sorted, hasValue field d = false := fun d hd => by
        simpa [hasValue] using hall d (hsorted.perm.mem_iff.mp hd)
      rw [List.filter_eq_nil_iff.mpr fun d hd => by simp [hvalue d hd],
        List.filter_eq_self.mpr fun d hd => by simp [hvalue d hd], List.nil_append]

/-- Three users, one of no age. -/
theorem sort_nullsLast_iff_users :
    let docs : List Doc := [OrdDict.ofList [("name", .str "a")],
      OrdDict.ofList [("name", .str "b"), ("age", .int 40)],
      OrdDict.ofList [("name", .str "c"), ("age", .int 30)]]
    ∃ sorted, sort (.ofList docs) "age" false = .ofList sorted ∧
      SortedNullsLast "age" false docs sorted := by
  intro docs
  have hnumber : ∀ v ∈ presentValues "age" docs, IsNumber v := by
    intro v hv
    have hv : v ∈ [PyVal.int 40, PyVal.int 30] := hv
    rcases List.mem_pair.mp hv with rfl | rfl
    · exact ⟨_, _, rfl, rfl, nofun⟩
    · exact ⟨_, _, rfl, rfl, nofun⟩
  obtain ⟨sorted, hsort, -, hiff⟩ := sort_nullsLast_iff "age" false docs
    (mutuallyComparable_number hnumber)
  exact ⟨sorted, hsort, hiff.mpr (Or.inl rfl)⟩

/-- **A descending sort** puts the user of no age first. -/
theorem sort_descending_nullsFirst :
    let named : Doc := OrdDict.ofList [("name", .str "a")]
    let aged : Doc := OrdDict.ofList [("name", .str "b"), ("age", .int 40)]
    MutuallyComparable (presentValues "age" [aged, named]) ∧
      sort (.ofList [aged, named]) "age" true = .ofList [named, aged] ∧
      ¬ SortedNullsLast "age" true [aged, named] [named, aged] := by
  intro named aged
  have hnumber : ∀ v ∈ presentValues "age" [aged, named], IsNumber v := by
    intro v hv
    have hv : v ∈ [PyVal.int 40] := hv
    obtain rfl := List.mem_singleton.mp hv
    exact ⟨_, _, rfl, rfl, nofun⟩
  refine ⟨mutuallyComparable_number hnumber, rfl, ?_⟩
  rintro ⟨front, hsorted, -⟩
  have hlast := congrArg List.getLast? hsorted
  have hnulls : [aged, named].filter (fun d => !hasValue "age" d) = [named] := by decide
  rw [hnulls, List.getLast?_concat] at hlast
  exact absurd hlast (by decide)

end NullsLast

end JsonpySql
