/-
JsonpySql/RangeQuery.lean

Range queries on integers, with and without an index.

The predicate compares numbers, the index compares their decimal strings.  An
index scan therefore loses exactly the documents whose value satisfies the
predicate but does not lie between the bounds as a string
(`rangeQuery_agrees_iff`): 100 lies between 18 and 200, but "100" comes before
"18".
-/
import JsonpySql.Executor
import JsonpySql.IndexInvariants

namespace JsonpySql

open StorageEngine QueryExecutor

/-! ### The order of decimal strings -/

theorem empty_le (s : String) : "" ≤ s := by
  intro h
  rw [String.lt_iff] at h
  exact List.not_lt_nil _ h

/-- A string of smaller characters comes first. -/
theorem le_replicate {s : String} {c : Char} (h : ∀ a ∈ s.toList, a < c) (n : ℕ) :
    s ≤ String.ofList (List.replicate (n + 1) c) := by
  intro hlt
  rw [String.lt_iff, String.toList_ofList, List.replicate_succ] at hlt
  rcases hs : s.toList with _ | ⟨a, l⟩
  · rw [hs] at hlt
    exact List.not_lt_nil _ hlt
  · have ha : a < c := h a (hs ▸ List.mem_cons_self)
    rw [hs, List.cons_lt_cons_iff] at hlt
    rcases hlt with hca | ⟨rfl, -⟩
    · exact Char.lt_asymm ha hca
    · exact Char.lt_irrefl _ ha

/-- The characters of a number come before the one the upper sentinel is made
of. -/
theorem lt_of_mem_toString (n : ℤ) : ∀ a ∈ (toString n).toList, a < '\uffff' := by
  have hdigit : ∀ m : ℕ, ∀ a ∈ Nat.toDigits 10 m, a < '\uffff' := by
    intro m a ha
    obtain ⟨-, h9⟩ := Char.isDigit_iff_toNat.mp
      (Nat.isDigit_of_mem_toDigits (by decide) (by decide) ha)
    rw [Char.lt_def, UInt32.lt_iff_toNat_lt]
    exact Nat.lt_of_le_of_lt h9 (by decide)
  intro a ha
  cases n with
  | ofNat n =>
      have hmem : a ∈ (String.ofList (Nat.toDigits 10 n)).toList := ha
      rw [String.toList_ofList] at hmem
      exact hdigit n a hmem
  | negSucc n =>
      have hmem : a ∈ ("-" ++ String.ofList (Nat.toDigits 10 (n + 1))).toList := ha
      rw [String.toList_append] at hmem
      rcases List.mem_append.mp hmem with hsign | hmem
      · obtain rfl := List.mem_singleton.mp hsign
        decide
      · rw [String.toList_ofList] at hmem
        exact hdigit (n + 1) a hmem

/-! ### Range predicates -/

/-- The predicates `low <= x[f] <= high`, `x[f] >= low`, `x[f] > low`,
`x[f] <= high` and `x[f] < high`. -/
inductive RangePredicate
  | between (low high : ℤ)
  | atLeast (low : ℤ)
  | above (low : ℤ)
  | atMost (high : ℤ)
  | below (high : ℤ)
deriving DecidableEq

/-- An integer as it is written: a literal, negated where it is negative. -/
def intLiteral (n : ℤ) : PyExpr :=
  if 0 ≤ n then .constant (.int n) else .unaryOp .uSub (.constant (.int (-n)))

namespace RangePredicate

def low : RangePredicate → Option ℤ
  | .between low _ | .atLeast low | .above low => some low
  | .atMost _ | .below _ => none

def high : RangePredicate → Option ℤ
  | .between _ high | .atMost high | .below high => some high
  | .atLeast _ | .above _ => none

/-- The numbers that satisfy the predicate. -/
def accepts (p : RangePredicate) (n : ℤ) : Bool :=
  match p with
  | .between low high => low ≤ n && n ≤ high
  | .atLeast low => low ≤ n
  | .above low => low < n
  | .atMost high => n ≤ high
  | .below high => n < high

/-- The expression, in a lambda whose argument is `x`. -/
def body (p : RangePredicate) (x f : String) : PyExpr :=
  let field : PyExpr := .subscript (.name x) (.constant (.str f))
  match p with
  | .between low high =>
      .compare (intLiteral low) [(.order .le, field), (.order .le, intLiteral high)]
  | .atLeast low => .compare field [(.order .ge, intLiteral low)]
  | .above low => .compare field [(.order .gt, intLiteral low)]
  | .atMost high => .compare field [(.order .le, intLiteral high)]
  | .below high => .compare field [(.order .lt, intLiteral high)]

/-- The lambda, in some scope. -/
def lambda (p : RangePredicate) (x f : String) (scope : String → Except PyErr PyVal) : Lambda :=
  ⟨[x], p.body x f, scope⟩

end RangePredicate

/-- A bound as a plan holds it. -/
def boundVal (bound : Option ℤ) : PyVal := bound.elim .none .int

@[simp] theorem extractLiteral_intLiteral (n : ℤ) :
    extractLiteral (intLiteral n) = .ok (.int n) := by
  rw [intLiteral]
  split
  · rfl
  · show PyVal.neg (.int (-n)) = _
    rw [PyVal.neg, neg_neg]

@[simp] theorem eval_intLiteral (names : String → Except PyErr PyVal) (n : ℤ) :
    (intLiteral n).eval names = .ok (.int n) := by
  rw [intLiteral]
  split
  · rfl
  · show PyVal.neg (.int (-n)) = _
    rw [PyVal.neg, neg_neg]

variable {p : RangePredicate} {x f : String} {scope : String → Except PyErr PyVal} {d : Doc}
  {n : ℤ} {names : String → Except PyErr PyVal}

/-! ### What the lambda returns -/

theorem evalComparisons_one {op : OrderOp} {e : PyExpr} {m n : ℤ}
    (he : e.eval names = .ok (.int n)) :
    PyExpr.evalComparisons names (.int m) [(.order op, e)] = .ok (.bool (op.holds m n)) := by
  rw [PyExpr.evalComparisons, he, ok_bind, CmpOp.apply, PyVal.order_int]
  rfl

theorem evalComparisons_two {op op' : OrderOp} {e e' : PyExpr} {m n k : ℤ}
    (he : e.eval names = .ok (.int n)) (he' : e'.eval names = .ok (.int k)) :
    PyExpr.evalComparisons names (.int m) [(.order op, e), (.order op', e')] =
      .ok (.bool (op.holds m n && op'.holds n k)) := by
  rw [PyExpr.evalComparisons, he, ok_bind, CmpOp.apply, PyVal.order_int]
  rcases h : op.holds m n with _ | _
  · -- the chain stops here
    rfl
  · exact evalComparisons_one he'

/-- The lambda compares the number in the field. -/
theorem test_rangePredicate (h : d.get? f = some (.int n)) :
    (p.lambda x f scope).toCallable.test d = .ok (p.accepts n) := by
  let names : String → Except PyErr PyVal :=
    fun id => if id = x then .ok (.dict d.entries) else scope id
  have hx : names x = .ok (.dict d.entries) := if_pos rfl
  have hfield := eval_field hx h
  have hcall : (p.lambda x f scope).call d = .ok (.bool (p.accepts n)) := by
    show (p.body x f).eval names = _
    cases p with
    | between low high =>
        rw [RangePredicate.body, PyExpr.eval, eval_intLiteral, ok_bind]
        exact evalComparisons_two hfield (eval_intLiteral _ high)
    | atLeast low =>
        rw [RangePredicate.body, PyExpr.eval, hfield, ok_bind]
        exact evalComparisons_one (eval_intLiteral _ low)
    | above low =>
        rw [RangePredicate.body, PyExpr.eval, hfield, ok_bind]
        exact evalComparisons_one (eval_intLiteral _ low)
    | atMost high =>
        rw [RangePredicate.body, PyExpr.eval, hfield, ok_bind]
        exact evalComparisons_one (eval_intLiteral _ high)
    | below high =>
        rw [RangePredicate.body, PyExpr.eval, hfield, ok_bind]
        exact evalComparisons_one (eval_intLiteral _ high)
  show ((p.lambda x f scope).call d).map PyVal.truthy = _
  rw [hcall]
  rfl

/-! ### What the planner makes of it -/

theorem tryRange_range {indexed : List String} (hf : f ≠ "") (hindexed : f ∈ indexed) :
    tryRange (p.body x f) x indexed = .ok (some (f, boundVal p.low, boundVal p.high)) := by
  have hfield : indexedField (.subscript (.name x) (.constant (.str f))) x indexed = some f := by
    simp [indexedField, extractSubscriptField, hf, hindexed]
  have hliteral : ∀ n, fieldWithLiteral (some f) (intLiteral n) = .ok (some (f, .int n)) := by
    intro n
    rw [fieldWithLiteral, extractLiteral_intLiteral, ok_bind]
    rfl
  cases p with
  | between low high =>
      simp only [RangePredicate.body, tryRange, extractLiteral_intLiteral, ok_bind, hfield]
      rfl
  | atLeast low | above low | atMost high | below high =>
      simp only [RangePredicate.body, tryRange, hfield, hliteral, ok_bind]
      rfl

/-- **The planner recognises a range predicate** on an indexed field. -/
theorem parsePredicate_range {indexed : List String} (hf : f ≠ "") (hindexed : f ∈ indexed) :
    parsePredicate (p.lambda x f scope).toCallable indexed =
      .ok ⟨.rangeScan, some f, .none, boundVal p.low, boundVal p.high⟩ := by
  have hclause : firstClause (p.body x f) = p.body x f := by
    cases p <;> rfl
  have heq : tryEquality (p.body x f) x indexed = .ok none := by
    cases p <;> rfl
  simp only [parsePredicate, Lambda.toCallable, RangePredicate.lambda, hclause, heq,
    tryRange_range hf hindexed, ok_bind]
  rfl

/-! ### What the scans find -/

/-- The number lies between the bounds as a string. -/
def RangePredicate.InStringOrder (p : RangePredicate) (n : ℤ) : Prop :=
  (∀ low ∈ p.low, toString low ≤ toString n) ∧ ∀ high ∈ p.high, toString n ≤ toString high

/-- The bounds of the scan, as keys: a sentinel stands where there is none. -/
theorem bounds_iff (p : RangePredicate) (n : ℤ) :
    ((lowBound (boundVal p.low)).toStr ≤ toString n ∧
        toString n ≤ (highBound (boundVal p.high)).toStr) ↔ p.InStringOrder n := by
  have hlow : (lowBound (boundVal p.low)).toStr ≤ toString n ↔
      ∀ low ∈ p.low, toString low ≤ toString n := by
    -- an absent bound is the empty string, which comes first
    rcases p.low with _ | low
    · exact iff_of_true (empty_le _) fun _ h => nomatch h
    · simp [lowBound, boundVal]
  have hhigh : toString n ≤ (highBound (boundVal p.high)).toStr ↔
      ∀ high ∈ p.high, toString n ≤ toString high := by
    -- an absent bound is a string that comes after every number
    rcases p.high with _ | high
    · exact iff_of_true (le_replicate (lt_of_mem_toString n) 9) fun _ h => nomatch h
    · simp [highBound, boundVal]
  rw [hlow, hhigh, RangePredicate.InStringOrder]

/-- Whether the number in the field of a row satisfies the predicate. -/
def RangePredicate.keeps (p : RangePredicate) (f : String) (d : Doc) : Bool :=
  match d.get? f with
  | some (.int n) => p.accepts n
  | _ => false

theorem keeps_of_get? (h : d.get? f = some (.int n)) : p.keeps f d = p.accepts n := by
  rw [RangePredicate.keeps, h]

theorem allHold_rangePredicate (h : ∃ n, d.get? f = some (.int n)) :
    allHold d [(p.lambda x f scope).toCallable] = .ok (p.keeps f d) := by
  obtain ⟨n, hn⟩ := h
  rw [allHold, test_rangePredicate hn, ok_bind, keeps_of_get? hn]
  rcases p.accepts n with _ | _
  · rfl
  · rfl

variable {t : Table} {i : String}

/-- A live document with number `n` in field `f`. -/
def HoldsInt (t : Table) (f i : String) (n : ℤ) : Prop :=
  ∃ r, t.liveRow i = some r ∧ r.doc.get? f = some (.int n)

/-- The field of an integer is not the id. -/
theorem get?_stripId {r : Record} (hid : r.docId = some i) (hn : r.doc.get? f = some (.int n)) :
    r.stripId.get? f = some (.int n) := by
  have hf : f ≠ "_id" := by
    rintro rfl
    rw [Record.docId, hn] at hid
    cases hid
  rw [Record.stripId, OrdDict.get?_erase, if_neg hf, hn]

/-- The ids of the rows of a full scan that the predicate keeps. -/
theorem mem_full (ht : t.WF)
    (hints : ∀ r ∈ DocumentStore.rows t, ∃ n, r.doc.get? f = some (.int n)) :
    i ∈ (((DocumentStore.rows t).map fun r => Row.mk (r.docId.getD "") r.doc).filter
        fun row => p.keeps f row.doc).map Row.id ↔
      ∃ n, HoldsInt t f i n ∧ p.accepts n = true := by
  simp only [List.mem_map, List.mem_filter, mem_fullRows ht]
  constructor
  · rintro ⟨row, ⟨⟨r, hr, hdoc⟩, hkeep⟩, rfl⟩
    obtain ⟨n, hn⟩ := hints r (Table.mem_rows.mpr ⟨_, hr⟩)
    rw [hdoc, keeps_of_get? hn] at hkeep
    exact ⟨n, ⟨r, hr, hn⟩, hkeep⟩
  · rintro ⟨n, ⟨r, hr, hn⟩, haccepts⟩
    refine ⟨⟨i, r.doc⟩, ⟨⟨r, hr, rfl⟩, ?_⟩, rfl⟩
    rw [keeps_of_get? hn]
    exact haccepts

/-- The ids of the rows of an index scan that the predicate keeps. -/
theorem mem_indexed {ids : List String} (ht : t.WF)
    (hints : ∀ r ∈ DocumentStore.rows t, ∃ n, r.doc.get? f = some (.int n))
    (hids : ∀ i, i ∈ ids ↔ ∃ r ∈ DocumentStore.rows t, r.docId = some i ∧
      (lowBound (boundVal p.low)).toStr ≤ (Doc.get r.doc f).toStr ∧
      (Doc.get r.doc f).toStr ≤ (highBound (boundVal p.high)).toStr) :
    i ∈ ((ids.filterMap fun i => (t.get i).map (Row.mk i)).filter
        fun row => p.keeps f row.doc).map Row.id ↔
      ∃ n, HoldsInt t f i n ∧ p.accepts n = true ∧ p.InStringOrder n := by
  have hkey : ∀ {r : Record} {n : ℤ}, r.doc.get? f = some (.int n) →
      (Doc.get r.doc f).toStr = toString n := fun hn => by
    rw [Doc.get, hn]
    rfl
  have hrow : i ∈ ((ids.filterMap fun i => (t.get i).map (Row.mk i)).filter
        fun row => p.keeps f row.doc).map Row.id ↔
      i ∈ ids ∧ ∃ r, t.liveRow i = some r ∧ p.keeps f r.stripId = true := by
    simp only [List.mem_map, List.mem_filter, mem_fetchedRows]
    constructor
    · rintro ⟨row, ⟨⟨hi, r, hr, hdoc⟩, hkeep⟩, rfl⟩
      exact ⟨hi, r, hr, hdoc ▸ hkeep⟩
    · rintro ⟨hi, r, hr, hkeep⟩
      exact ⟨⟨i, r.stripId⟩, ⟨⟨hi, r, hr, rfl⟩, hkeep⟩, rfl⟩
  rw [hrow, hids]
  constructor
  · rintro ⟨⟨r, hr, hid, hbounds⟩, r', hr', hkeep⟩
    have hlive := (Table.liveRow_eq_some_iff_rows ht).mpr ⟨hr, hid⟩
    obtain rfl : r' = r := Option.some.inj (hr'.symm.trans hlive)
    obtain ⟨n, hn⟩ := hints r' hr
    rw [hkey hn, bounds_iff] at hbounds
    rw [keeps_of_get? (get?_stripId hid hn)] at hkeep
    exact ⟨n, ⟨r', hr', hn⟩, hkeep, hbounds⟩
  · rintro ⟨n, ⟨r, hr, hn⟩, haccepts, hbounds⟩
    obtain ⟨hmem, hid⟩ := (Table.liveRow_eq_some_iff_rows ht).mp hr
    refine ⟨⟨r, hmem, hid, ?_⟩, r, hr, ?_⟩
    · rw [hkey hn, bounds_iff]
      exact hbounds
    · rw [keeps_of_get? (get?_stripId hid hn)]
      exact haccepts

/-! ### The plan against a full scan -/

variable {env : Env} {w : Database} {c : String} {im : IndexManager} {idx : SortedDict}
  {spec : IndexSpec}

/-- The plan of a query with a range predicate. -/
def RangePredicate.plan (p : RangePredicate) (c f : String) : QueryPlan :=
  ⟨c, .rangeScan, some f, .none, boundVal p.low, boundVal p.high, 1, none, none, false, false,
    false, false⟩

theorem plan_range (p : RangePredicate) (planner : QueryPlanner) (c x : String)
    (scope : String → Except PyErr PyVal) (hf : f ≠ "") (hindexed : f ∈ planner.indexedFields) :
    planner.plan c [(p.lambda x f scope).toCallable] none 0 false false false false =
      .ok (p.plan c f) := by
  show (parsePredicate (p.lambda x f scope).toCallable planner.indexedFields >>= _) = _
  rw [parsePredicate_range hf hindexed]
  rfl

/-- **Both scans return**, and keep these documents. -/
theorem scanWhere_range (p : RangePredicate) (x : String) (scope : String → Except PyErr PyVal)
    (henv : env.Alone) (hw : Serving w) (him : w.mem.get? c = some im)
    (hspec : spec.fields = [f]) (hfind : im.findIndexFor f = some idx)
    (hexact : InvertedIndex.Exact idx (IndexManager.keyOf spec (tables w.disk c)))
    (hints : ∀ r ∈ DocumentStore.rows (tables w.disk c), ∃ n, r.doc.get? f = some (.int n)) :
    ∃ indexed full,
      (scanWhere (p.plan c f) [(p.lambda x f scope).toCallable]).value env w = .ok indexed ∧
      (scanWhere (.ofCollection c) [(p.lambda x f scope).toCallable]).value env w = .ok full ∧
      (∀ i, i ∈ indexed.map Row.id ↔ ∃ n, HoldsInt (tables w.disk c) f i n ∧
        p.accepts n = true ∧ p.InStringOrder n) ∧
      ∀ i, i ∈ full.map Row.id ↔ ∃ n, HoldsInt (tables w.disk c) f i n ∧ p.accepts n = true := by
  have ht := tables_wf w.disk c
  have hhas : im.hasIndexFor f = true := by
    rw [IndexManager.hasIndexFor, hfind]
    rfl
  have hmem : c ∈ w.mem.keys := OrdDict.mem_keys_of_get? him
  have hrange := run_scan_range (p.plan c f) henv hw him rfl rfl hhas
  have hfull := run_scan_full (.ofCollection c) henv hw hmem rfl
  obtain ⟨-, hids⟩ := IndexManager.mem_rangeScan ht hspec hfind hexact
    (lowBound (boundVal p.low)) (highBound (boundVal p.high))
  refine ⟨_, _, value_scanWhere hrange ?_, value_scanWhere hfull ?_,
    fun i => mem_indexed ht hints hids, fun i => mem_full ht hints⟩
  · intro row hrow
    obtain ⟨i, -, hi⟩ := List.mem_filterMap.mp hrow
    obtain ⟨d, hd, rfl⟩ := Option.map_eq_some_iff.mp hi
    rw [Table.get_eq_map_liveRow] at hd
    obtain ⟨r, hr, rfl⟩ := Option.map_eq_some_iff.mp hd
    obtain ⟨hmem, hid⟩ := (Table.liveRow_eq_some_iff_rows ht).mp hr
    obtain ⟨n, hn⟩ := hints r hmem
    exact allHold_rangePredicate ⟨n, get?_stripId hid hn⟩
  · intro row hrow
    obtain ⟨r, hr, rfl⟩ := List.mem_map.mp hrow
    exact allHold_rangePredicate (hints r hr)

/-- **When the index does not change the answer.**  The planner makes a range
scan of a range predicate on an indexed field; where every live document holds
an integer there and the index is exact, it finds the documents a full scan
finds just if every number that satisfies the predicate also lies between its
bounds as a decimal string. -/
theorem rangeQuery_agrees_iff (p : RangePredicate) (planner : QueryPlanner) (x f : String)
    (scope : String → Except PyErr PyVal) (henv : env.Alone) (hw : Serving w)
    (him : w.mem.get? c = some im) (hspec : spec.fields = [f])
    (hfind : im.findIndexFor f = some idx)
    (hexact : InvertedIndex.Exact idx (IndexManager.keyOf spec (tables w.disk c)))
    (hf : f ≠ "") (hindexed : f ∈ planner.indexedFields)
    (hints : ∀ r ∈ DocumentStore.rows (tables w.disk c), ∃ n, r.doc.get? f = some (.int n)) :
    let predicates := [(p.lambda x f scope).toCallable]
    ∃ plan, planner.plan c predicates none 0 false false false false = .ok plan ∧
      plan.scanType = .rangeScan ∧
      ∃ indexed full, (scanWhere plan predicates).value env w = .ok indexed ∧
        (scanWhere (.ofCollection c) predicates).value env w = .ok full ∧
        ((∀ i, i ∈ indexed.map Row.id ↔ i ∈ full.map Row.id) ↔
          ∀ i n, HoldsInt (tables w.disk c) f i n → p.accepts n = true → p.InStringOrder n) := by
  intro predicates
  obtain ⟨indexed, full, hvalue, hvalue', hmem, hmemFull⟩ :=
    scanWhere_range p x scope henv hw him hspec hfind hexact hints
  refine ⟨p.plan c f, plan_range p planner c x scope hf hindexed, rfl, indexed, full, hvalue,
    hvalue', ?_⟩
  constructor
  · intro hsame i n hn haccepts
    have hfull := (hmemFull i).mpr ⟨n, hn, haccepts⟩
    obtain ⟨n', ⟨r', hr', hn'⟩, -, horder⟩ := (hmem i).mp ((hsame i).mpr hfull)
    -- a document holds one number
    obtain ⟨r, hr, hrn⟩ := hn
    obtain rfl : r = r' := Option.some.inj (hr.symm.trans hr')
    obtain rfl : n = n' := by simpa using hrn.symm.trans hn'
    exact horder
  · intro horder i
    rw [hmem, hmemFull]
    constructor
    · rintro ⟨n, hn, haccepts, -⟩
      exact ⟨n, hn, haccepts⟩
    · rintro ⟨n, hn, haccepts⟩
      exact ⟨n, hn, haccepts, horder i n hn haccepts⟩

/-! ### One document -/

/-- A collection indexed by age, and one person in it. -/
def agesDb (age : ℤ) : Database :=
  (createCollection "people" [⟨["age"], false⟩] false >>= fun _ => performAll
    [.write (.insert "people" "1" (OrdDict.ofList [("age", .int age)]))]).exec onlyClient emptyDb

theorem rows_agesDb (age : ℤ) : DocumentStore.rows (tables (agesDb age).disk "people") =
    [Record.ofDoc "1" (OrdDict.ofList [("age", .int age)])] := rfl

theorem holdsInt_agesDb (age : ℤ) : HoldsInt (tables (agesDb age).disk "people") "age" "1" age :=
  ⟨Record.ofDoc "1" (OrdDict.ofList [("age", .int age)]), rfl, rfl⟩

theorem hints_agesDb (age : ℤ) : ∀ r ∈ DocumentStore.rows (tables (agesDb age).disk "people"),
    ∃ n, r.doc.get? "age" = some (.int n) := by
  rw [rows_agesDb]
  intro r hr
  obtain rfl := List.mem_singleton.mp hr
  exact ⟨age, rfl⟩

/-- Its indexes are exact. -/
theorem exact_agesDb (age : ℤ) : Serving (agesDb age) ∧
    Indexed IndexManager.Exact "people" [⟨["age"], false⟩] (agesDb age) := by
  have hok : (createCollection "people" [⟨["age"], false⟩] false).value onlyClient emptyDb =
      .ok () := rfl
  have hcreated := createCollection_spec hok
  let op : EngineOp := .write (.insert "people" "1" (OrdDict.ofList [("age", .int age)]))
  have hreg : ∀ op' ∈ [op], op'.collection ∈
      ((createCollection "people" [⟨["age"], false⟩] false).exec onlyClient emptyDb).mem.keys := by
    intro op' hop'
    obtain rfl := List.mem_singleton.mp hop'
    exact List.mem_singleton.mpr rfl
  have hclean : ∀ op' ∈ [op], op'.Clean := by
    intro op' hop'
    obtain rfl := List.mem_singleton.mp hop'
    rintro d ⟨⟩
    exact ⟨rfl, rfl⟩
  have hfresh : InsertsFresh onlyClient "people"
      ((createCollection "people" [⟨["age"], false⟩] false).exec onlyClient emptyDb) [op] :=
    ⟨fun _ _ _ => rfl, trivial⟩
  exact (performAll_exact onlyClient_alone (hcreated.serving emptyDb_serving) hreg hclean hfresh
    hcreated.indexed).2

/-- The index on the age is among them. -/
theorem indexed_agesDb (age : ℤ) : Serving (agesDb age) ∧ ∃ im idx spec,
    (agesDb age).mem.get? "people" = some im ∧ spec.fields = ["age"] ∧
    im.findIndexFor "age" = some idx ∧
    InvertedIndex.Exact idx (IndexManager.keyOf spec (tables (agesDb age).disk "people")) := by
  obtain ⟨hw, im, him, hsp, hexact⟩ := exact_agesDb age
  have hspecs : ∃ spec ∈ im.specs, spec.fields = ["age"] :=
    hsp ▸ ⟨_, List.mem_singleton.mpr rfl, rfl⟩
  obtain ⟨e, he, hfields, hfind⟩ := IndexManager.findIndexFor_of_mem hspecs
  exact ⟨hw, im, e.2, e.1, him, hfields, hfind, hexact e he⟩

/-- A hundred lies between 18 and 200, but "100" comes before "18": the full
scan finds the document, the index does not. -/
theorem rangeQuery_hundred :
    let p := RangePredicate.between 18 200
    let predicates := [(p.lambda "x" "age" fun id => .error (.keyError id)).toCallable]
    ∃ plan indexed full,
      (QueryPlanner.mk ["age"] 0 10000).plan "people" predicates none 0 false false false false =
        .ok plan ∧
      (scanWhere plan predicates).value onlyClient (agesDb 100) = .ok indexed ∧
      (scanWhere (.ofCollection "people") predicates).value onlyClient (agesDb 100) = .ok full ∧
      ¬ ∀ i, i ∈ indexed.map Row.id ↔ i ∈ full.map Row.id := by
  intro p predicates
  obtain ⟨hw, im, idx, spec, him, hspec, hfind, hexact⟩ := indexed_agesDb 100
  obtain ⟨indexed, full, hvalue, hvalue', hmem, hmemFull⟩ := scanWhere_range p "x"
    (fun id => .error (.keyError id)) onlyClient_alone hw him hspec hfind hexact (hints_agesDb 100)
  refine ⟨_, indexed, full, plan_range p _ "people" "x" _ (by decide) (by decide), hvalue, hvalue',
    fun hsame => ?_⟩
  have hfull := (hmemFull "1").mpr ⟨100, holdsInt_agesDb 100, by decide⟩
  obtain ⟨n, ⟨r, hr, hn⟩, -, hlow, -⟩ := (hmem "1").mp ((hsame "1").mpr hfull)
  obtain ⟨r', hr', hn'⟩ := holdsInt_agesDb 100
  obtain rfl : r = r' := Option.some.inj (hr.symm.trans hr')
  obtain rfl : n = 100 := by simpa using hn.symm.trans hn'
  exact absurd (hlow 18 rfl) (by decide)

/-- Between numbers of as many digits the two orders agree. -/
theorem rangeQuery_thirty :
    let p := RangePredicate.between 18 65
    let predicates := [(p.lambda "x" "age" fun id => .error (.keyError id)).toCallable]
    ∃ plan, (QueryPlanner.mk ["age"] 0 10000).plan "people" predicates none 0 false false false
        false = .ok plan ∧ plan.scanType = .rangeScan ∧
      ∃ indexed full, (scanWhere plan predicates).value onlyClient (agesDb 30) = .ok indexed ∧
        (scanWhere (.ofCollection "people") predicates).value onlyClient (agesDb 30) = .ok full ∧
        ∀ i, i ∈ indexed.map Row.id ↔ i ∈ full.map Row.id := by
  intro p predicates
  obtain ⟨hw, im, idx, spec, him, hspec, hfind, hexact⟩ := indexed_agesDb 30
  obtain ⟨plan, hplan, htype, indexed, full, hvalue, hvalue', hiff⟩ :=
    rangeQuery_agrees_iff p (QueryPlanner.mk ["age"] 0 10000) "x" "age" _ onlyClient_alone hw him
      hspec hfind hexact (by decide) (by decide) (hints_agesDb 30)
  refine ⟨plan, hplan, htype, indexed, full, hvalue, hvalue', hiff.mpr ?_⟩
  rintro i n ⟨r, hr, hn⟩ -
  have hmem := (Table.liveRow_eq_some_iff_rows (tables_wf _ _)).mp hr
  rw [rows_agesDb] at hmem
  obtain rfl := List.mem_singleton.mp hmem.1
  obtain rfl : (30 : ℤ) = n := by
    have hage : some (PyVal.int 30) = some (.int n) := hn
    simpa using hage
  exact ⟨by rintro _ ⟨⟩; decide, by rintro _ ⟨⟩; decide⟩

end JsonpySql
