/-
JsonpySql/Aggregates.lean

The aggregation engine: documents are grouped by the values of some fields, and
each group becomes a row, with the values of these fields and one value for each
named aggregate.
-/
import JsonpySql.GroupBy
import JsonpySql.PyArith

namespace JsonpySql

/-! ### Specifications -/

/-- An aggregate of a group. -/
inductive AggSpec
  | countAgg
  | sumAgg (field : String)
  | avgAgg (field : String)
  | minAgg (field : String)
  | maxAgg (field : String)
deriving DecidableEq

/-- `[v for v in values if v is not None]`. -/
def nonNull (values : List PyVal) : List PyVal := values.filter (· ≠ .none)

/-- An ordering comparison of two values. -/
def compareValues (op : OrderOp) (v w : PyVal) : Except PyErr Bool :=
  (v.order op w).mapError PyErr.typeError

/-- `min(values)` and `max(values)`, of which `None` is the value on no values: an
item replaces the current one where it compares so. -/
def extremum (op : OrderOp) : List PyVal → Except PyErr PyVal
  | [] => .ok .none
  | v :: values =>
      values.foldlM (fun current item => do
        if ← compareValues op item current then return item else return current) v

namespace AggSpec

/-- The aggregate of some values, which for a count are the documents. -/
def compute (spec : AggSpec) (values : List PyVal) : Except PyErr PyVal :=
  match spec with
  | .countAgg => .ok (.int values.length)
  | .sumAgg _ => PyVal.sum (nonNull values)
  | .avgAgg _ =>
      let values := nonNull values
      if values.isEmpty then .ok .none
      else do
        let total ← PyVal.sum values
        total.divCount values.length
  | .minAgg _ => extremum .lt (nonNull values)
  | .maxAgg _ => extremum .gt (nonNull values)

/-- The values an aggregate is computed of. -/
def values (spec : AggSpec) (docs : List Doc) : List PyVal :=
  match spec with
  | .countAgg => docs.map fun d => .dict d.entries
  | .sumAgg field | .avgAgg field | .minAgg field | .maxAgg field => docs.map fun d => d.get field

end AggSpec

/-! ### Groups -/

/-- The values of the group fields. -/
def groupKey (document : Doc) (groupFields : List String) : List PyVal :=
  groupFields.map document.get

/-- `hash` of a key raises on a list or a mapping in it. -/
def checkHashable : List PyVal → Except PyErr Unit
  | [] => .ok ()
  | .scalar _ :: key => checkHashable key
  | v :: _ => .error (.typeError ("unhashable type: '" ++ v.typeName ++ "'"))

/-- The same key of a mapping: a value is the same as itself even if it is a NaN. -/
def sameKey (a b : List PyVal) : Bool :=
  a.length = b.length && (a.zip b).all fun p => p.1 = p.2 || p.1.eq p.2

/-- `groups[key].append(doc)`, for every document. -/
def accumulate (groupFields : List String) :
    List Doc → List (List PyVal × List Doc) → Except PyErr (List (List PyVal × List Doc))
  | [], groups => .ok groups
  | doc :: docs, groups => do
      let key := groupKey doc groupFields
      checkHashable key
      accumulate groupFields docs (GroupBy.add sameKey key doc groups)

/-- One row: the group fields, then the aggregates. -/
def aggregateRow (groupFields : List String) (aggregates : OrdDict String AggSpec)
    (key : List PyVal) (docs : List Doc) : Except PyErr Doc := do
  let values ← aggregates.entries.mapM fun e => do
    let value ← e.2.compute (e.2.values docs)
    return (e.1, value)
  return (OrdDict.ofList (groupFields.zip key)).assign values

/-- Group documents and apply named aggregates. -/
def applyAggregates (documents : List Doc) (groupFields : List String)
    (aggregates : OrdDict String AggSpec) : Except PyErr (List Doc) := do
  let groups ← accumulate groupFields documents []
  groups.mapM fun g => aggregateRow groupFields aggregates g.1 g.2

end JsonpySql
