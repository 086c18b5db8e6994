/-
JsonpySql/Planner.lean

The rule-based query planner.

A predicate is a one-argument lambda.  The planner reads its syntax tree and
picks an index for an equality or a range on an indexed field; the executor
calls it.  Both are here: the tree with what the planner recognises in it
(`parsePredicate`), and what the lambda returns on a document (`Lambda.call`).
-/
import JsonpySql.Disk

/-! ### Subscripts and negation -/

namespace PyVal

open JsonpySql (PyErr)

/-- The item at an index, counted from the end where it is negative. -/
def itemAt {α : Type} (xs : List α) (n : ℤ) : Option α :=
  if 0 ≤ n then xs[n.toNat]? else if -n ≤ xs.length then xs[(xs.length + n).toNat]? else Option.none

/-- The value as an index of a sequence: `False` is 0 and `True` is 1. -/
def index? : PyVal → Option ℤ
  | .int n => some n
  | .bool b => some (if b then 1 else 0)
  | _ => Option.none

/-- `v[k]`. -/
def getItem : PyVal → PyVal → Except PyErr PyVal
  | .dict es, .str k => (es.lookup k).elim (.error (.keyError k)) .ok
  | .dict _, .scalar k => .error (.keyError k.repr)
  | .dict _, k => .error (.typeError ("unhashable type: '" ++ k.typeName ++ "'"))
  | .list xs, k =>
      match k.index? with
      | some n => (itemAt xs n).elim (.error (.indexError "list index out of range")) .ok
      | Option.none =>
          .error (.typeError ("list indices must be integers or slices, not " ++ k.typeName))
  | .str s, k =>
      match k.index? with
      | some n =>
          (itemAt s.toList n).elim (.error (.indexError "string index out of range"))
            fun c => .ok (.str (String.singleton c))
      | Option.none =>
          .error (.typeError ("string indices must be integers, not '" ++ k.typeName ++ "'"))
  | v, _ => .error (.typeError ("'" ++ v.typeName ++ "' object is not subscriptable"))

/-- `-v`, of a value a literal or a stored document can hold. -/
def neg : PyVal → Except PyErr PyVal
  | .int n => .ok (.int (-n))
  | .bool b => .ok (.int (if b then -1 else 0))
  | .float (.finite x) => .ok (.float (.finite { x with neg := !x.neg }))
  | .float (.inf neg) => .ok (.float (.inf !neg))
  | .float .nan => .ok (.float .nan)
  | v => .error (.typeError ("bad operand type for unary -: '" ++ v.typeName ++ "'"))

end PyVal

namespace JsonpySql

/-! ### Lambda expressions -/

/-- Comparison operators.  `is`, `in` and their negations are given by what
they compute. -/
inductive CmpOp
  | eq | notEq
  | order (op : OrderOp)
  | other (f : PyVal → PyVal → Except PyErr PyVal)

inductive BoolOp
  | and | or
deriving DecidableEq

/-- Unary operators.  `+` and `~` are given by what they compute. -/
inductive UnaryOp
  | uSub | not
  | other (f : PyVal → Except PyErr PyVal)

/-- The body of a lambda: the nodes the planner looks at.  Any other node is
given by its value under an assignment of values to names. -/
inductive PyExpr
  | constant (value : PyScalar)
  | name (id : String)
  | subscript (value slice : PyExpr)
  | compare (left : PyExpr) (comparisons : List (CmpOp × PyExpr))
  | boolOp (op : BoolOp) (values : List PyExpr)
  | unaryOp (op : UnaryOp) (operand : PyExpr)
  | other (value : (String → Except PyErr PyVal) → Except PyErr PyVal)

def CmpOp.apply (op : CmpOp) (a b : PyVal) : Except PyErr PyVal :=
  match op with
  | .eq => .ok (.bool (a.eq b))
  | .notEq => .ok (.bool !(a.eq b))
  | .order op => ((a.order op b).mapError PyErr.typeError).map PyVal.bool
  | .other f => f a b

def UnaryOp.apply (op : UnaryOp) (v : PyVal) : Except PyErr PyVal :=
  match op with
  | .uSub => v.neg
  | .not => .ok (.bool !v.truthy)
  | .other f => f v

namespace PyExpr

mutual

/-- The value of an expression. -/
def eval (names : String → Except PyErr PyVal) : PyExpr → Except PyErr PyVal
  | .constant v => .ok (.scalar v)
  | .name id => names id
  | .subscript value slice => do
      let v ← value.eval names
      let k ← slice.eval names
      v.getItem k
  | .compare left comparisons => do
      let v ← left.eval names
      evalComparisons names v comparisons
  | .boolOp op values => evalBool names op values
  | .unaryOp op operand => do
      let v ← operand.eval names
      op.apply v
  | .other value => value names

/-- A chain of comparisons stops at the first that is false. -/
def evalComparisons (names : String → Except PyErr PyVal) (v : PyVal) :
    List (CmpOp × PyExpr) → Except PyErr PyVal
  | [] => .ok (.bool true)
  | (op, right) :: comparisons => do
      let w ← right.eval names
      let r ← op.apply v w
      if comparisons.isEmpty || !r.truthy then return r
      evalComparisons names w comparisons

/-- `and` returns its first false value, `or` its first true one, or else the
last. -/
def evalBool (names : String → Except PyErr PyVal) (op : BoolOp) :
    List PyExpr → Except PyErr PyVal
  | [] => .ok (.bool (op = .and))
  | e :: es => do
      let v ← e.eval names
      if es.isEmpty || v.truthy = (op = .or) then return v
      evalBool names op es

end

end PyExpr

/-- A lambda, and what the names it does not bind stand for. -/
structure Lambda where
  args : List String
  body : PyExpr
  scope : String → Except PyErr PyVal

/-- The value of the lambda on one argument. -/
def Lambda.call (l : Lambda) (d : Doc) : Except PyErr PyVal :=
  match l.args with
  | [arg] => l.body.eval fun id => if id = arg then .ok (.dict d.entries) else l.scope id
  | _ => .error (.typeError "<lambda>() takes a different number of positional arguments")

/-- A callable given to `where`: what it returns, read as a condition, and the
lambda its source parses to, if there is one. -/
structure Callable where
  source : Option Lambda
  test : Doc → Except PyErr Bool

/-- A lambda whose source is found. -/
def Lambda.toCallable (l : Lambda) : Callable where
  source := some l
  test d := (l.call d).map PyVal.truthy

theorem ok_bind {ε α β : Type} (a : α) (g : α → Except ε β) : (Except.ok a >>= g) = g a := rfl

/-- A sequence returns when both its parts do. -/
theorem bind_eq_ok_iff {ε α β : Type} {x : Except ε α} {g : α → Except ε β} {b : β} :
    (x >>= g) = .ok b ↔ ∃ a, x = .ok a ∧ g a = .ok b := by
  cases x with
  | error e => exact ⟨nofun, fun ⟨_, h, _⟩ => nomatch h⟩
  | ok a => exact ⟨fun h => ⟨a, rfl, h⟩, fun ⟨_, ha, h⟩ => Except.ok.inj ha ▸ h⟩

/-- A field of the document the name stands for. -/
theorem eval_field {names : String → Except PyErr PyVal} {x f : String} {d : Doc} {v : PyVal}
    (hx : names x = .ok (.dict d.entries)) (h : d.get? f = some v) :
    (PyExpr.subscript (.name x) (.constant (.str f))).eval names = .ok v := by
  have hlookup : d.entries.lookup f = some v := h
  show (names x >>= fun v => v.getItem (.str f)) = _
  rw [hx, ok_bind, PyVal.getItem, hlookup]
  rfl

/-! ### Plans -/

inductive ScanType
  | indexLookup | rangeScan | fullScan
deriving DecidableEq

inductive JoinStrategy
  | nestedLoop | hashJoin
deriving DecidableEq

/-- How a query will be run. -/
structure QueryPlan where
  collection : String
  scanType : ScanType
  indexField : Option String
  indexValue : PyVal
  indexLow : PyVal
  indexHigh : PyVal
  predicateCount : ℕ
  joinStrategy : Option JoinStrategy
  joinCollection : Option String
  hasOrderBy : Bool
  hasLimit : Bool
  hasProjection : Bool
  hasAggregation : Bool

/-- `QueryPlan(collection)`: a full scan. -/
def QueryPlan.ofCollection (collection : String) : QueryPlan :=
  ⟨collection, .fullScan, none, .none, .none, .none, 0, none, none, false, false, false, false⟩

/-- What the planner reads off a predicate. -/
structure Access where
  scanType : ScanType
  indexField : Option String
  indexValue : PyVal
  indexLow : PyVal
  indexHigh : PyVal
deriving DecidableEq

/-- No index is used. -/
def Access.fail : Access := ⟨.fullScan, none, .none, .none, .none⟩

/-! ### Pattern matchers -/

/-- The field name of `arg['field']`. -/
def extractSubscriptField (node : PyExpr) (arg : String) : Option String :=
  match node with
  | .subscript (.name id) (.constant (.str field)) => if id = arg then some field else none
  | _ => none

/-- The value of a literal, perhaps negated; `None` for anything else. -/
def extractLiteral : PyExpr → Except PyErr PyVal
  | .constant value => .ok (.scalar value)
  | .unaryOp .uSub (.constant value) => (PyVal.scalar value).neg
  | _ => .ok .none

/-- `field and field in indexed`, for the field of a subscript. -/
def indexedField (node : PyExpr) (arg : String) (indexed : List String) : Option String :=
  (extractSubscriptField node arg).filter fun field => field ≠ "" ∧ field ∈ indexed

/-- A field with the literal it is compared to. -/
def fieldWithLiteral (field : Option String) (node : PyExpr) :
    Except PyErr (Option (String × PyVal)) :=
  match field with
  | none => .ok none
  | some field => do
      let value ← extractLiteral node
      return if value = .none then none else some (field, value)

/-- `x['field'] == literal` or `literal == x['field']`. -/
def tryEquality (node : PyExpr) (arg : String) (indexed : List String) :
    Except PyErr (Option (String × PyVal)) :=
  match node with
  | .compare left [(.eq, right)] => do
      match ← fieldWithLiteral (indexedField left arg indexed) right with
      | some result => return some result
      | none => fieldWithLiteral (indexedField right arg indexed) left
  | _ => .ok none

/-- `low <= x['field'] <= high`, or one bound with the field on the left. -/
def tryRange (node : PyExpr) (arg : String) (indexed : List String) :
    Except PyErr (Option (String × PyVal × PyVal)) :=
  match node with
  | .compare left [(op₀, middle), (op₁, right)] => do
      let leftVal ← extractLiteral left
      let rightVal ← extractLiteral right
      match indexedField middle arg indexed with
      | none => return none
      | some field =>
          if leftVal = .none ∨ rightVal = .none then return none
          match op₀, op₁ with
          | .order .le, .order .le | .order .le, .order .lt
          | .order .lt, .order .le | .order .lt, .order .lt =>
              return some (field, leftVal, rightVal)
          | _, _ => return none
  | .compare left [(op, right)] => do
      match ← fieldWithLiteral (indexedField left arg indexed) right with
      | none => return none
      | some (field, value) =>
          match op with
          -- a strict bound is scanned as a weak one: the predicate filters the rows afterwards
          | .order .ge | .order .gt => return some (field, value, .none)
          | .order .le | .order .lt => return some (field, .none, value)
          | _ => return none
  | _ => .ok none

/-- Of a conjunction only the first clause is inspected. -/
def firstClause : PyExpr → PyExpr
  | .boolOp .and (clause :: _) => clause
  | body => body

/-- The index a predicate can use. -/
def parsePredicate (fn : Callable) (indexedFields : List String) : Except PyErr Access :=
  match fn.source with
  | none => .ok .fail
  | some lam =>
      match lam.args with
      | [argName] => do
          let body := firstClause lam.body
          match ← tryEquality body argName indexedFields with
          | some (field, value) => return ⟨.indexLookup, some field, value, .none, .none⟩
          | none =>
              match ← tryRange body argName indexedFields with
              | some (field, low, high) => return ⟨.rangeScan, some field, .none, low, high⟩
              | none => return .fail
      | _ => .ok .fail

/-! ### The planner -/

structure QueryPlanner where
  indexedFields : List String
  collectionSize : ℕ
  hashJoinThreshold : ℕ

namespace QueryPlanner

/-- The strategy of a join, by the smaller of the two sizes. -/
def joinStrategy (planner : QueryPlanner) (joinCollection : Option String)
    (joinCollectionSize : ℕ) : Option JoinStrategy :=
  joinCollection.map fun _ =>
    if min planner.collectionSize joinCollectionSize ≤ planner.hashJoinThreshold
    then .hashJoin else .nestedLoop

/-- The plan of a query: only its first predicate is inspected. -/
def plan (planner : QueryPlanner) (collection : String) (predicates : List Callable)
    (joinCollection : Option String) (joinCollectionSize : ℕ)
    (hasOrderBy hasLimit hasProjection hasAggregation : Bool) : Except PyErr QueryPlan := do
  let access ← match predicates with
    | [] => pure Access.fail
    | fn :: _ => parsePredicate fn planner.indexedFields
  return {
    collection := collection
    scanType := access.scanType
    indexField := access.indexField
    indexValue := access.indexValue
    indexLow := access.indexLow
    indexHigh := access.indexHigh
    predicateCount := predicates.length
    joinStrategy := planner.joinStrategy joinCollection joinCollectionSize
    joinCollection := joinCollection
    hasOrderBy := hasOrderBy
    hasLimit := hasLimit
    hasProjection := hasProjection
    hasAggregation := hasAggregation }

end QueryPlanner

end JsonpySql
