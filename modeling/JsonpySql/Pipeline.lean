/-
JsonpySql/Pipeline.lean

The stages a query runs through, and the builder that collects its clauses.

A query only reads: on an unchanging database its stages are functions of what
the engine's reads return there.  Every stage but the sort and the aggregation
is a generator, so that a query with a limit never runs the rest of the loops
that feed it.
-/
import JsonpySql.Aggregates
import JsonpySql.Executor
import JsonpySql.Generators
import JsonpySql.StableSort

namespace JsonpySql

/-- The clauses of a query. -/
structure QuerySpec where
  predicates : List Callable
  joinCollection : Option String
  joinPredicate : Option (Doc → Doc → Except PyErr Bool)
  orderByField : Option String
  orderDescending : Bool
  limit : Option ℤ
  skip : ℤ
  projection : Option (Doc → Except PyErr Doc)
  groupFields : List String
  aggregates : OrdDict String AggSpec

/-- No clauses. -/
def QuerySpec.empty : QuerySpec := ⟨[], none, none, none, false, none, 0, none, [], OrdDict.empty⟩

namespace QueryExecutor

/-! ### Scan, filter, join -/

section Reads

variable (env : Env) (w : Database)

/-- The documents of a collection. -/
def scanCollection (col : String) : Gen PyErr Doc :=
  .ofExcept (((StorageEngine.scan col).value env w).map fun rows => rows.map Record.doc)

/-- The documents of the primary collection, as the plan reads them. -/
def scanDocs (plan : QueryPlan) : Gen PyErr Doc :=
  .ofExcept (((scan plan).value env w).map fun rows => rows.map Row.doc)

/-- The documents that satisfy every predicate, as they come. -/
def filterDocs (predicates : List Callable) (docs : Gen PyErr Doc) : Gen PyErr Doc :=
  docs.filter fun doc => allHold doc predicates

/-- `{**left, **right}`. -/
def mergeDocs (left right : Doc) : Doc := left.assign right.entries

/-- The joined rows of one left document. -/
def matchRight (predicate : Doc → Doc → Except PyErr Bool) (left : Doc) (rights : Gen PyErr Doc) :
    Gen PyErr Doc :=
  (rights.filter (predicate left)).map fun right => .ok (mergeDocs left right)

/-- The right collection is read once for each left document. -/
def nestedLoopJoin (leftDocs : Gen PyErr Doc) (rightCollection : String)
    (predicate : Doc → Doc → Except PyErr Bool) : Gen PyErr Doc :=
  leftDocs.bind fun left => matchRight predicate left (scanCollection env w rightCollection)

/-- The right collection is read first, into a list. -/
def hashJoin (leftDocs : Gen PyErr Doc) (rightCollection : String)
    (predicate : Doc → Doc → Except PyErr Bool) : Gen PyErr Doc :=
  match (scanCollection env w rightCollection).toExcept with
  | .error e => .fail e
  | .ok rightDocs => leftDocs.bind fun left => matchRight predicate left (.ofList rightDocs)

/-- Join two collections by the strategy of the plan. -/
def join (leftDocs : Gen PyErr Doc) (plan : QueryPlan) (rightCollection : String)
    (predicate : Doc → Doc → Except PyErr Bool) : Gen PyErr Doc :=
  if plan.joinStrategy = some .hashJoin then hashJoin env w leftDocs rightCollection predicate
  else nestedLoopJoin env w leftDocs rightCollection predicate

end Reads

/-! ### Sort and slice -/

/-- `<` on the keys `(d.get(field) is None, d.get(field))`: the second parts are
compared only where the first agree, and then only if they differ. -/
def keyBelow (field : String) (a b : Doc) : Except PyErr Bool :=
  match a.get field, b.get field with
  | .none, _ => .ok false
  | _, .none => .ok true
  | v, w => if v = w ∨ v.eq w = true then .ok false else compareValues .lt v w

/-- `sort(key=..., reverse=descending)` on a list of documents. -/
def sortDocs (field : String) (descending : Bool) (docs : List Doc) : Except PyErr (List Doc) :=
  StableSort.sort (keyBelow field) descending docs

/-- Sort documents by a field. -/
def sort (docs : Gen PyErr Doc) (field : String) (descending : Bool) : Gen PyErr Doc :=
  match docs.toExcept with
  | .error e => .fail e
  | .ok docs => .ofExcept (sortDocs field descending docs)

/-- The loop of `slice`: `count` documents were yielded and `skipped` were not. -/
def sliceFrom {α : Type} (skip : ℤ) (limit : Option ℤ) (error : Option PyErr) :
    (count skipped : ℤ) → List α → Gen PyErr α
  | _, _, [] => ⟨[], error⟩
  | count, skipped, doc :: docs =>
      if skipped < skip then sliceFrom skip limit error count (skipped + 1) docs
      -- the limit is looked at only after the document is yielded
      else if limit.any (· ≤ count + 1) then ⟨[doc], none⟩
      else (Gen.ofList [doc]).append (sliceFrom skip limit error (count + 1) skipped docs)

/-- Apply skip and limit. -/
def slice {α : Type} (docs : Gen PyErr α) (skip : ℤ) (limit : Option ℤ) : Gen PyErr α :=
  sliceFrom skip limit docs.error 0 0 docs.items

/-! ### All stages -/

section Execute

variable (env : Env) (w : Database)

/-- The rows of the scan, filtered and joined. -/
def joinedDocs (plan : QueryPlan) (spec : QuerySpec) : Gen PyErr Doc :=
  let docs := filterDocs spec.predicates (scanDocs env w plan)
  match spec.joinCollection, spec.joinPredicate with
  | some rightCollection, some predicate => join env w docs plan rightCollection predicate
  | _, _ => docs

/-- Run a plan. -/
def execute (plan : QueryPlan) (spec : QuerySpec) : Gen PyErr Doc :=
  let docs := joinedDocs env w plan spec
  if !spec.aggregates.entries.isEmpty then
    let results := do
      let results ← applyAggregates (← docs.toExcept) spec.groupFields spec.aggregates
      match spec.orderByField with
      | some field => sortDocs field spec.orderDescending results
      | none => return results
    slice (.ofExcept results) spec.skip spec.limit
  else
    let docs := match spec.orderByField with
      | some field => sort docs field spec.orderDescending
      | none => docs
    let docs := slice docs spec.skip spec.limit
    match spec.projection with
    | some projection => docs.map projection
    | none => docs

end Execute

/-- Filtering rows and filtering documents is the same. -/
theorem toExcept_filterDocs (predicates : List Callable) (rows : List Row) :
    (filterDocs predicates (.ofList (rows.map Row.doc))).toExcept =
      (applyPredicates predicates rows).map (List.map Row.doc) := by
  rw [filterDocs, Gen.filter, Gen.bind_ofList]
  induction rows with
  | nil => rfl
  | cons row rows ih =>
      rw [List.map_cons, Gen.forEach, Gen.toExcept_append, ih, applyPredicates]
      rcases allHold row.doc predicates with e | keep
      · rfl
      · rcases applyPredicates predicates rows with e | rows'
        · rfl
        · cases keep <;> rfl

end QueryExecutor

/-! ### The builder -/

/-- The state of a builder. -/
structure QueryBuilder where
  collection : String
  indexedFields : List String
  collectionSize : ℕ
  hashJoinThreshold : ℕ
  joinCollectionSize : ℕ
  spec : QuerySpec

namespace QueryBuilder

/-- A builder without clauses. -/
def ofCollection (collection : String) (indexedFields : List String)
    (collectionSize hashJoinThreshold : ℕ) : QueryBuilder :=
  ⟨collection, indexedFields, collectionSize, hashJoinThreshold, 0, .empty⟩

/-- Add a filter predicate. -/
def where_ (q : QueryBuilder) (predicate : Callable) : QueryBuilder :=
  { q with spec := { q.spec with predicates := q.spec.predicates ++ [predicate] } }

/-- Add a join. -/
def join (q : QueryBuilder) (collection : String) (on : Doc → Doc → Except PyErr Bool)
    (collectionSize : ℕ) : QueryBuilder :=
  { q with
    joinCollectionSize := collectionSize
    spec := { q.spec with joinCollection := some collection, joinPredicate := some on } }

/-- Set the ordering field. -/
def orderBy (q : QueryBuilder) (field : String) (descending : Bool) : QueryBuilder :=
  { q with spec := { q.spec with orderByField := some field, orderDescending := descending } }

/-- Cap the number of results. -/
def limit (q : QueryBuilder) (n : ℤ) : QueryBuilder :=
  { q with spec := { q.spec with limit := some n } }

/-- Skip the first results. -/
def skip (q : QueryBuilder) (n : ℤ) : QueryBuilder := { q with spec := { q.spec with skip := n } }

/-- Project each result. -/
def select (q : QueryBuilder) (projection : Doc → Except PyErr Doc) : QueryBuilder :=
  { q with spec := { q.spec with projection := some projection } }

/-- Set the fields to group by. -/
def groupBy (q : QueryBuilder) (fields : List String) : QueryBuilder :=
  { q with spec := { q.spec with groupFields := fields } }

/-- Add named aggregates. -/
def aggregate (q : QueryBuilder) (namedSpecs : List (String × AggSpec)) : QueryBuilder :=
  { q with spec := { q.spec with aggregates := q.spec.aggregates.assign namedSpecs } }

/-- The plan of the query. -/
def buildPlan (q : QueryBuilder) : Except PyErr QueryPlan :=
  (QueryPlanner.mk q.indexedFields q.collectionSize q.hashJoinThreshold).plan q.collection
    q.spec.predicates q.spec.joinCollection q.joinCollectionSize q.spec.orderByField.isSome
    q.spec.limit.isSome q.spec.projection.isSome !q.spec.aggregates.entries.isEmpty

/-- All results, as a list. -/
def toList (env : Env) (w : Database) (q : QueryBuilder) : Except PyErr (List Doc) := do
  let plan ← q.buildPlan
  (QueryExecutor.execute env w plan q.spec).toExcept

end QueryBuilder

end JsonpySql
