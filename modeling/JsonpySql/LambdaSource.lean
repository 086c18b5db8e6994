/-
JsonpySql/LambdaSource.lean

The text the planner reads a predicate from.

A callable does not carry its own text: the interpreter gives the source line it
stands on, and the planner takes the first `lambda` on it, trimmed from the
right until it parses (`FirstLambda`).  Where several lambdas share a line the plan of
any of them is that of the first.  It finds what a later one accepts only if the clause
the first is planned on happens to be true of it (`plan_finds_accepted_iff`).
-/
import JsonpySql.Pushdown

namespace JsonpySql

/-! ### Finding the text -/

/-- The characters `strip` removes. -/
def isSpace (c : Char) : Bool :=
  c ∈ ['\t', '\n', '\x0b', '\x0c', '\r', '\x1c', '\x1d', '\x1e', '\x1f', ' ', '\x85', '\xa0',
    '\u1680', '\u2000', '\u2001', '\u2002', '\u2003', '\u2004', '\u2005', '\u2006', '\u2007',
    '\u2008', '\u2009', '\u200a', '\u2028', '\u2029', '\u202f', '\u205f', '\u3000']

def lstrip (cs : List Char) : List Char := cs.dropWhile isSpace

def rstrip (cs : List Char) : List Char := (cs.reverse.dropWhile isSpace).reverse

/-- The text from the first `lambda` on. -/
def findLambda (cs : List Char) : Option (List Char) :=
  cs.tails.find? fun tail => "lambda".toList.isPrefixOf tail

section Parse

-- `ast.parse(text, mode="eval")` where its body is a lambda: the arguments and the
-- body of the lambda
variable (parse : String → Option (List String × PyExpr))

/-- Trim the text from the right until it parses. -/
def trimNoise (src : List Char) : ℕ → Option String
  | 0 => none
  | n + 1 =>
      let candidate := String.ofList (rstrip (src.take (n + 1)))
      if (parse candidate).isSome then some candidate else trimNoise src n

/-- The text of a lambda, given what `inspect.getsource` returns. -/
def extractLambdaSource (getsource : Option String) : Option String := do
  let src ← findLambda (rstrip (lstrip (← getsource).toList))
  trimNoise parse src src.length

/-- A lambda passed to `where`, with the lambda the planner takes it for. -/
def Lambda.onLine (getsource : Option String) (passed : Lambda) : Callable where
  source := do
    let text ← extractLambdaSource parse getsource
    let (args, body) ← parse text
    return ⟨args, body, passed.scope⟩
  test := passed.toCallable.test

variable {parse}

/-- One round of the loop: the longest prefix is tried first. -/
theorem trimNoise_succ (src : List Char) (n : ℕ) {text : String}
    (htext : String.ofList (rstrip (src.take (n + 1))) = text) :
    trimNoise parse src (n + 1) = if (parse text).isSome then some text
      else trimNoise parse src n := by
  subst htext
  rfl

/-- **The text found** is the longest prefix that parses. -/
theorem trimNoise_eq_some_iff {src : List Char} {n : ℕ} {text : String} :
    trimNoise parse src n = some text ↔ ∃ k < n,
      String.ofList (rstrip (src.take (k + 1))) = text ∧ (parse text).isSome ∧
      ∀ j < n, k < j → parse (String.ofList (rstrip (src.take (j + 1)))) = none := by
  induction n with
  | zero => simp [trimNoise]
  | succ n ih =>
      rw [trimNoise_succ src n rfl]
      split
      · rename_i hparse
        constructor
        · rintro h
          cases h
          exact ⟨n, n.lt_succ_self, rfl, hparse, fun j hj hlt => absurd hlt (by omega)⟩
        · rintro ⟨k, hk, rfl, -, hnone⟩
          rcases Nat.lt_succ_iff_lt_or_eq.mp hk with hlt | rfl
          · -- the whole text would not have parsed
            rw [hnone n n.lt_succ_self hlt] at hparse
            cases hparse
          · rfl
      · rename_i hparse
        rw [ih]
        constructor
        · rintro ⟨k, hk, htext, hsome, hnone⟩
          refine ⟨k, hk.trans n.lt_succ_self, htext, hsome, fun j hj hlt => ?_⟩
          rcases Nat.lt_succ_iff_lt_or_eq.mp hj with hj | rfl
          · exact hnone j hj hlt
          · exact Option.not_isSome_iff_eq_none.mp hparse
        · rintro ⟨k, hk, htext, hsome, hnone⟩
          have hne : k ≠ n := by
            rintro rfl
            exact hparse (htext ▸ hsome)
          exact ⟨k, by omega, htext, hsome, fun j hj => hnone j (hj.trans n.lt_succ_self)⟩

/-- **The first `lambda`** starts as far left as any. -/
theorem findLambda_eq_some_iff {cs rest : List Char} : findLambda cs = some rest ↔
    ∃ before, cs = before ++ rest ∧ "lambda".toList <+: rest ∧
      ∀ b r, cs = b ++ r → "lambda".toList <+: r → before.length ≤ b.length := by
  have hnil : ¬"lambda".toList <+: [] := by decide
  induction cs generalizing rest with
  | nil =>
      have hnone : findLambda [] = none := by decide
      rw [hnone]
      refine iff_of_false (by simp) ?_
      rintro ⟨before, heq, hrest, -⟩
      obtain ⟨-, rfl⟩ := List.append_eq_nil_iff.mp heq.symm
      exact hnil hrest
  | cons c cs ih =>
      by_cases hhere : "lambda".toList <+: c :: cs
      · have hfind : findLambda (c :: cs) = some (c :: cs) := by
          exact List.find?_cons_of_pos (List.isPrefixOf_iff_prefix.mpr hhere)
        rw [hfind]
        constructor
        · rintro h
          cases h
          exact ⟨[], rfl, hhere, fun _ _ _ _ => Nat.zero_le _⟩
        · rintro ⟨before, heq, -, hfirst⟩
          have hzero : before.length ≤ 0 := hfirst [] (c :: cs) rfl hhere
          obtain rfl : before = [] := List.length_eq_zero_iff.mp (Nat.le_zero.mp hzero)
          exact congrArg some heq
      · have hfind : findLambda (c :: cs) = findLambda cs := by
          exact List.find?_cons_of_neg fun hpos => hhere (List.isPrefixOf_iff_prefix.mp hpos)
        rw [hfind]
        refine ih.trans ?_
        constructor
        · rintro ⟨before, rfl, hrest, hfirst⟩
          refine ⟨c :: before, rfl, hrest, fun b r heq hr => ?_⟩
          cases b with
          | nil => exact absurd (heq ▸ hr) hhere
          | cons b bs =>
              rw [List.cons_append, List.cons.injEq] at heq
              exact Nat.succ_le_succ (hfirst bs r heq.2 hr)
        · rintro ⟨before, heq, hrest, hfirst⟩
          cases before with
          | nil => exact absurd (heq ▸ hrest) hhere
          | cons b before =>
              rw [List.cons_append, List.cons.injEq] at heq
              refine ⟨before, heq.2, hrest, fun b' r hr hpre => ?_⟩
              exact Nat.le_of_succ_le_succ (hfirst (c :: b') r (congrArg (c :: ·) hr) hpre)

/-- The text the planner is to find on a line: it starts at the first `lambda` of the
stripped line and is the longest one from there that parses. -/
def FirstLambda (parse : String → Option (List String × PyExpr)) (line text : String) : Prop :=
  ∃ before rest, rstrip (lstrip line.toList) = before ++ rest ∧ "lambda".toList <+: rest ∧
    (∀ b r, rstrip (lstrip line.toList) = b ++ r → "lambda".toList <+: r →
      before.length ≤ b.length) ∧
    ∃ k < rest.length, String.ofList (rstrip (rest.take (k + 1))) = text ∧ (parse text).isSome ∧
      ∀ j < rest.length, k < j → parse (String.ofList (rstrip (rest.take (j + 1)))) = none

/-- **What is extracted** is this text. -/
theorem extractLambdaSource_eq_some_iff {getsource : Option String} {text : String} :
    extractLambdaSource parse getsource = some text ↔
      ∃ line, getsource = some line ∧ FirstLambda parse line text := by
  rcases getsource with _ | line
  · simp [extractLambdaSource]
  · have hbind : extractLambdaSource parse (some line) =
        (findLambda (rstrip (lstrip line.toList))).bind fun src =>
          trimNoise parse src src.length := rfl
    rw [hbind, Option.bind_eq_some_iff]
    simp only [findLambda_eq_some_iff, trimNoise_eq_some_iff]
    constructor
    · rintro ⟨rest, ⟨before, heq, hrest, hfirst⟩, htext⟩
      exact ⟨line, rfl, before, rest, heq, hrest, hfirst, htext⟩
    · rintro ⟨_, ⟨⟩, before, rest, heq, hrest, hfirst, htext⟩
      exact ⟨rest, ⟨before, heq, hrest, hfirst⟩, htext⟩

/-- The lambda the planner takes a passed one for is the first on the line. -/
theorem Lambda.source_onLine {getsource : Option String} {passed found : Lambda} :
    (passed.onLine parse getsource).source = some found ↔
      ∃ line text, getsource = some line ∧ FirstLambda parse line text ∧
        parse text = some (found.args, found.body) ∧ found.scope = passed.scope := by
  have hbind : (passed.onLine parse getsource).source =
      (extractLambdaSource parse getsource).bind fun text =>
        (parse text).map fun p => ⟨p.1, p.2, passed.scope⟩ := by
    show (do
      let text ← extractLambdaSource parse getsource
      let (args, body) ← parse text
      return (⟨args, body, passed.scope⟩ : Lambda)) = _
    rcases extractLambdaSource parse getsource with _ | text
    · rfl
    · show (do
        let (args, body) ← parse text
        return (⟨args, body, passed.scope⟩ : Lambda)) = (parse text).map _
      rcases parse text with _ | ⟨args, body⟩ <;> rfl
  rw [hbind, Option.bind_eq_some_iff]
  constructor
  · rintro ⟨text, htext, hfound⟩
    obtain ⟨line, hline, hfirst⟩ := extractLambdaSource_eq_some_iff.mp htext
    obtain ⟨p, hp, rfl⟩ := Option.map_eq_some_iff.mp hfound
    exact ⟨line, text, hline, hfirst, hp, rfl⟩
  · rintro ⟨line, text, hline, hfirst, hp, hscope⟩
    refine ⟨text, extractLambdaSource_eq_some_iff.mpr ⟨line, hline, hfirst⟩, ?_⟩
    rw [hp, Option.map_some, ← hscope]

end Parse

/-! ### Clauses the planner recognises -/

/-- A comparison of a field that has an index with a literal, or of such a field
between two literals. -/
inductive Indexable (indexed : List String) (arg : String) : PyExpr → Prop
  | equality {f : String} {literal : PyExpr} {v : PyVal} (hf : Usable indexed f)
      (hlit : IsLiteral literal v) :
      Indexable indexed arg (.compare (fieldExpr arg f) [(.eq, literal)])
  | equalityRight {f : String} {literal : PyExpr} {v : PyVal} (hf : Usable indexed f)
      (hlit : IsLiteral literal v) :
      Indexable indexed arg (.compare literal [(.eq, fieldExpr arg f)])
  | between {f : String} {left right : PyExpr} {low high : PyVal} {op₀ op₁ : OrderOp}
      (hf : Usable indexed f) (hleft : IsLiteral left low) (hright : IsLiteral right high)
      (h₀ : op₀.weaken = .le) (h₁ : op₁.weaken = .le) :
      Indexable indexed arg (.compare left [(.order op₀, fieldExpr arg f), (.order op₁, right)])
  | bound {f : String} {literal : PyExpr} {v : PyVal} {op : OrderOp} (hf : Usable indexed f)
      (hlit : IsLiteral literal v) :
      Indexable indexed arg (.compare (fieldExpr arg f) [(.order op, literal)])

section Indexable

variable {indexed : List String} {arg f : String} {node : PyExpr}

theorem indexedField_fieldExpr (hf : Usable indexed f) :
    indexedField (fieldExpr arg f) arg indexed = some f := by
  simp [indexedField, fieldExpr, extractSubscriptField, hf.1, hf.2]

theorem IsLiteral.indexedField {v : PyVal} (h : IsLiteral node v) :
    indexedField node arg indexed = none := by
  obtain ⟨h, hne⟩ := h
  cases node with
  | subscript value slice =>
      cases h
      exact absurd rfl hne
  | constant _ | name _ | compare _ _ | boolOp _ _ | unaryOp _ _ | other _ => rfl

theorem IsLiteral.fieldWithLiteral {v : PyVal} (h : IsLiteral node v) :
    fieldWithLiteral (some f) node = .ok (some (f, v)) := by
  rw [JsonpySql.fieldWithLiteral, h.1, ok_bind, if_neg h.2]
  rfl

/-- The planner takes such a clause for an equality or for a range. -/
theorem Indexable.recognised (h : Indexable indexed arg node) :
    (∃ p, tryEquality node arg indexed = .ok (some p)) ∨
      tryEquality node arg indexed = .ok none ∧
        ∃ p, tryRange node arg indexed = .ok (some p) := by
  cases h with
  | equality hf hlit =>
      left
      rw [tryEquality, indexedField_fieldExpr hf, hlit.fieldWithLiteral]
      exact ⟨_, rfl⟩
  | equalityRight hf hlit =>
      left
      rw [tryEquality, hlit.indexedField, indexedField_fieldExpr hf]
      exact ⟨_, hlit.fieldWithLiteral⟩
  | @between f left right low high op₀ op₁ hf hleft hright h₀ h₁ =>
      right
      refine ⟨rfl, (f, low, high), ?_⟩
      rw [tryRange, hleft.1, ok_bind, hright.1, ok_bind, indexedField_fieldExpr hf]
      simp only [hleft.2, hright.2, or_self, if_false]
      cases op₀ <;> cases h₀ <;> cases op₁ <;> cases h₁ <;> rfl
  | @bound f literal v op hf hlit =>
      right
      refine ⟨rfl, ?_⟩
      rw [tryRange, indexedField_fieldExpr hf, hlit.fieldWithLiteral, ok_bind]
      cases op <;> exact ⟨_, rfl⟩

/-- **The planner uses an index** exactly for these clauses. -/
theorem parsePredicate_ne_fail_iff {fn : Callable} {access : Access}
    (h : parsePredicate fn indexed = .ok access) : access ≠ .fail ↔
      ∃ lam arg, fn.source = some lam ∧ lam.args = [arg] ∧
        Indexable indexed arg (firstClause lam.body) := by
  constructor
  · intro hne
    obtain rfl | ⟨lam, arg, hsource, hargs, hcases⟩ := parsePredicate_cases h
    · exact absurd rfl hne
    refine ⟨lam, arg, hsource, hargs, ?_⟩
    rcases hcases with ⟨f, v, heqn, -⟩ | ⟨f, low, high, hrange, -⟩
    · obtain ⟨hf, literal, hlit, hnode⟩ := tryEquality_eq_some heqn
      rcases hnode with hnode | hnode
      · exact hnode ▸ .equality hf hlit
      · exact hnode ▸ .equalityRight hf hlit
    · obtain ⟨hf, ⟨left, right, op₀, op₁, hleft, hright, h₀, h₁, hnode⟩ |
        ⟨right, op, v, hright, hnode, -⟩⟩ := tryRange_eq_some hrange
      · exact hnode ▸ .between hf hleft hright h₀ h₁
      · exact hnode ▸ .bound hf hright
  · rintro ⟨lam, arg, hsource, hargs, hindexable⟩ rfl
    rw [parsePredicate, hsource] at h
    simp only [hargs] at h
    rcases hindexable.recognised with ⟨p, hp⟩ | ⟨hnone, p, hp⟩
    · rw [hp] at h
      cases h
    · rw [hnone, ok_bind, hp] at h
      cases h

end Indexable

/-! ### The plan of a passed lambda -/

/-- How a plan reads its collection. -/
def QueryPlan.access (plan : QueryPlan) : Access :=
  ⟨plan.scanType, plan.indexField, plan.indexValue, plan.indexLow, plan.indexHigh⟩

theorem QueryPlanner.plan_access {planner : QueryPlanner} {collection : String} {fn : Callable}
    {predicates : List Callable} {joinCollection : Option String} {size : ℕ}
    {hasOrderBy hasLimit hasProjection hasAggregation : Bool} {plan : QueryPlan}
    (h : planner.plan collection (fn :: predicates) joinCollection size hasOrderBy hasLimit
      hasProjection hasAggregation = .ok plan) :
    parsePredicate fn planner.indexedFields = .ok plan.access := by
  obtain ⟨access, haccess, h⟩ := bind_eq_ok_iff.mp h
  cases h
  exact haccess

/-- **The plan finds what the passed lambda accepts**, its scans being exact, if the
first lambda on the line is the passed one, or is none the planner uses an index for.
If it is another one, whose first clause compares a field that has an index with a
literal, the plan does so exactly if this clause, its bounds included, happens to be true
of every live document the passed lambda accepts. -/
theorem plan_finds_accepted_iff (parse : String → Option (List String × PyExpr))
    (line : String) (passed : Lambda) (planner : QueryPlanner) (collection : String)
    (predicates : List Callable) (joinCollection : Option String) (size : ℕ)
    (hasOrderBy hasLimit hasProjection hasAggregation : Bool) (plan : QueryPlan)
    (hplan : planner.plan collection (passed.onLine parse (some line) :: predicates)
      joinCollection size hasOrderBy hasLimit hasProjection hasAggregation = .ok plan)
    (live produced : List Doc)
    (hexact : ∀ d, d ∈ produced ↔ d ∈ live ∧ plan.access.Selects d) :
    (∀ d ∈ live, passed.Accepts d → d ∈ produced) ↔
      ∀ text arg body, FirstLambda parse line text → parse text = some ([arg], body) →
        Indexable planner.indexedFields arg (firstClause body) →
        ([arg], body) ≠ (passed.args, passed.body) →
        ∀ d ∈ live, passed.Accepts d →
          (Lambda.mk [arg] body passed.scope).screen.Accepts d := by
  have haccess := QueryPlanner.plan_access hplan
  constructor
  · intro h text arg body hfirst hparse hindexable _ d hd haccepts
    have hsource : (passed.onLine parse (some line)).source = some ⟨[arg], body, passed.scope⟩ :=
      Lambda.source_onLine.mpr ⟨line, text, rfl, hfirst, hparse, rfl⟩
    have hindex := (parsePredicate_ne_fail_iff haccess).mpr ⟨_, arg, hsource, rfl, hindexable⟩
    exact (Access.selects_iff haccess hsource hindex).mp ((hexact d).mp (h d hd haccepts)).2
  · intro h d hd haccepts
    refine (hexact d).mpr ⟨hd, ?_⟩
    by_cases hindex : plan.access = .fail
    · rw [hindex]
      trivial
    · obtain ⟨found, arg, hsource, hargs, hindexable⟩ :=
        (parsePredicate_ne_fail_iff haccess).mp hindex
      refine (Access.selects_iff haccess hsource hindex).mpr ?_
      obtain ⟨_, text, ⟨⟩, hfirst, hparse, hscope⟩ := Lambda.source_onLine.mp hsource
      obtain ⟨args, body, scope⟩ := found
      obtain rfl : args = [arg] := hargs
      obtain rfl : scope = passed.scope := hscope
      by_cases hown : ([arg], body) = (passed.args, passed.body)
      · -- the text is that of the passed lambda
        obtain ⟨hargs', hbody⟩ := Prod.mk.inj hown
        have hpassed : (⟨[arg], body, passed.scope⟩ : Lambda) = passed := by
          rw [hargs', hbody]
        rw [hpassed]
        exact haccepts.screen
      · exact h text arg body hfirst hparse hindexable hown d hd haccepts

/-! ### Two lambdas on a line -/

section TwoLambdas

/-- `lambda x: x['age'] == n`. -/
def ageEquals (n : ℤ) : Lambda :=
  ⟨["x"], .compare (fieldExpr "x" "age") [(.eq, .constant (.int n))],
    fun id => .error (.keyError id)⟩

/-- What parses as a lambda of a line that holds `lambda x: x['age'] == 1` and
`lambda x: x['age'] == 2`. -/
def parseAgeEquals (text : String) : Option (List String × PyExpr) :=
  if text = "lambda x: x['age'] == 1" then some (["x"], (ageEquals 1).body)
  else if text = "lambda x: x['age'] == 2" then some (["x"], (ageEquals 2).body)
  else if text = "lambda x: x['age']" then some (["x"], fieldExpr "x" "age")
  else if text = "lambda x: x" then some (["x"], .name "x")
  else none

/-- The plan of a query whose predicate is taken for `lambda x: x['age'] == n`. -/
def agePlan (n : ℤ) : QueryPlan :=
  ⟨"users", .indexLookup, some "age", .int n, .none, .none, 1, none, none, false, false, false,
    false⟩

theorem plan_ageEquals {fn : Callable} {n : ℤ} (hsource : fn.source = some (ageEquals n)) :
    (QueryPlanner.mk ["age"] 1 10000).plan "users" [fn] none 0 false false false false =
      .ok (agePlan n) := by
  have hparse : parsePredicate fn ["age"] =
      .ok ⟨.indexLookup, some "age", .int n, .none, .none⟩ := by
    rw [parsePredicate, hsource]
    rfl
  rw [QueryPlanner.plan, hparse]
  rfl

theorem selects_agePlan {n m : ℤ} {d : Doc} (hd : d.get? "age" = some (.int m)) :
    (agePlan n).access.Selects d ↔ m = n := by
  have heq : (PyVal.int m).eq (.int n) = true ↔ m = n := by
    simp [PyVal.eq, PyScalar.eq, PyScalar.number?, PyNumber.eq]
  rw [← heq]
  constructor
  · rintro ⟨x, hx, hxn⟩
    obtain rfl : x = .int m := Option.some.inj (hx.symm.trans hd)
    exact hxn
  · intro h
    exact ⟨_, hd, h⟩

/-- A line with one lambda. -/
theorem plan_finds_accepted_iff_alone :
    let line := "q.where(lambda x: x['age'] == 1)"
    let one : Doc := OrdDict.ofList [("age", .int 1)]
    let two : Doc := OrdDict.ofList [("age", .int 2)]
    ((ageEquals 1).onLine parseAgeEquals (some line)).source = some (ageEquals 1) ∧
      (ageEquals 1).Accepts one ∧ ∀ d ∈ [one, two], (ageEquals 1).Accepts d → d ∈ [one] := by
  intro line one two
  have htext : extractLambdaSource parseAgeEquals (some line) =
      some "lambda x: x['age'] == 1" := by decide +kernel
  have hsource : ((ageEquals 1).onLine parseAgeEquals (some line)).source = some (ageEquals 1) := by
    rw [Lambda.onLine, htext]
    rfl
  have hexact : ∀ d, d ∈ [one] ↔ d ∈ [one, two] ∧ (agePlan 1).access.Selects d := by
    intro d
    have hone : (agePlan 1).access.Selects one := (selects_agePlan rfl).mpr rfl
    have htwo : ¬ (agePlan 1).access.Selects two := fun h => by
      cases (selects_agePlan rfl).mp h
    simp only [List.mem_cons, List.not_mem_nil, or_false]
    constructor
    · rintro rfl
      exact ⟨Or.inl rfl, hone⟩
    · rintro ⟨rfl | rfl, h⟩
      · rfl
      · exact absurd h htwo
  refine ⟨hsource, ⟨.bool true, rfl, rfl⟩, ?_⟩
  refine (plan_finds_accepted_iff parseAgeEquals line (ageEquals 1) ⟨["age"], 1, 10000⟩
    "users" [] none 0 false false false false (agePlan 1) (plan_ageEquals hsource) [one, two] [one]
    hexact).mpr ?_
  intro text arg body hfirst hparse _ hother
  -- the text found is the one lambda on the line
  have hsame : extractLambdaSource parseAgeEquals (some line) = some text :=
    extractLambdaSource_eq_some_iff.mpr ⟨line, rfl, hfirst⟩
  obtain rfl := Option.some.inj (htext.symm.trans hsame)
  exact absurd (Option.some.inj hparse).symm hother

/-- **The plan of the second lambda on a line** is that of the first: a document
it accepts is not looked up. -/
theorem second_lambda_on_line :
    let line := "a, b = q.where(lambda x: x['age'] == 1), q.where(lambda x: x['age'] == 2)"
    let second := "lambda x: x['age'] == 2"
    let passed := ageEquals 2
    let d : Doc := OrdDict.ofList [("age", .int 2)]
    second.toList <:+: line.toList ∧ parseAgeEquals second = some (passed.args, passed.body) ∧
      ∃ plan, (QueryPlanner.mk ["age"] 1 10000).plan "users"
          [passed.onLine parseAgeEquals (some line)] none 0 false false false false = .ok plan ∧
        passed.Accepts d ∧ ¬ plan.access.Selects d := by
  intro line second passed d
  have htext : extractLambdaSource parseAgeEquals (some line) =
      some "lambda x: x['age'] == 1" := by decide +kernel
  have hsource : (passed.onLine parseAgeEquals (some line)).source = some (ageEquals 1) := by
    rw [Lambda.onLine, htext]
    rfl
  refine ⟨by decide +kernel, rfl, agePlan 1, plan_ageEquals hsource, ⟨.bool true, rfl, rfl⟩, ?_⟩
  intro h
  cases (selects_agePlan rfl).mp h

end TwoLambdas

end JsonpySql
