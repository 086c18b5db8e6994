/-
JsonpySql/Executor.lean

The query executor: how a plan reads its collection, and how the predicates
filter what it reads.
-/
import JsonpySql.Effects
import JsonpySql.Planner

namespace JsonpySql

/-- A document a scan yields.  `id` is not part of the document: it is the id
the document was found under, which an index scan does not pass on. -/
structure Row where
  id : String
  doc : Doc

namespace QueryExecutor

/-- `low if low is not None else ""`. -/
def lowBound (low : PyVal) : PyVal := if low = .none then .str "" else low

/-- `high if high is not None else "\uffff" * 10`. -/
def highBound (high : PyVal) : PyVal :=
  if high = .none then .str (String.ofList (List.replicate 10 '\uffff')) else high

/-- The documents of a list of ids, without those that are gone. -/
def fetch (col : String) : List String → EngineM (List Row)
  | [] => pure []
  | docId :: docIds => do
      let doc ← StorageEngine.get col docId
      let rows ← fetch col docIds
      return match doc with
        | some doc => ⟨docId, doc⟩ :: rows
        -- a stale entry of the index
        | none => rows

/-- The documents of the primary collection, as the plan reads them. -/
def scan (plan : QueryPlan) : EngineM (List Row) :=
  let col := plan.collection
  match plan.scanType, plan.indexField with
  | .indexLookup, some field => do
      let docIds ← StorageEngine.lookup col field plan.indexValue
      fetch col docIds
  | .rangeScan, some field => do
      let docIds ← StorageEngine.rangeScan col field (lowBound plan.indexLow)
        (highBound plan.indexHigh)
      fetch col docIds
  | _, _ => do
      let rows ← StorageEngine.scan col
      return rows.map fun r => ⟨r.docId.getD "", r.doc⟩

/-- `all(p(doc) for p in predicates)`. -/
def allHold (doc : Doc) : List Callable → Except PyErr Bool
  | [] => .ok true
  | p :: predicates => do
      if ← p.test doc then allHold doc predicates else return false

/-- The documents that satisfy every predicate. -/
def applyPredicates (predicates : List Callable) : List Row → Except PyErr (List Row)
  | [] => .ok []
  | row :: rows => do
      let keep ← allHold row.doc predicates
      let rows ← applyPredicates predicates rows
      return if keep then row :: rows else rows

/-- A scan with its predicates. -/
def scanWhere (plan : QueryPlan) (predicates : List Callable) : EngineM (List Row) := do
  let rows ← scan plan
  match applyPredicates predicates rows with
  | .error e => Prog.raise e
  | .ok rows => pure rows

/-! ### Runs -/

variable {env : Env} {w : Database} {c : String}

/-- **Fetching** reads the table, id by id. -/
theorem run_fetch (henv : env.Alone) (hw : Serving w) (hc : c ∈ w.mem.keys)
    (docIds : List String) : (fetch c docIds).run env w =
      ⟨.ok (docIds.filterMap fun i => ((tables w.disk c).get i).map (Row.mk i)), w.mem, []⟩ := by
  induction docIds with
  | nil => rfl
  | cons i docIds ih =>
      have hget := run_engine_get hw hc (LockManager.blocked_of_alone henv _ .shared) i
      rw [fetch, Prog.run_bind_read hget, Prog.run_bind_read ih, List.filterMap_cons]
      rcases (tables w.disk c).get i with _ | d
      · rfl
      · rfl

/-- **A full scan** reads the rows of the table. -/
theorem run_scan_full (plan : QueryPlan) (henv : env.Alone) (hw : Serving w)
    (hc : plan.collection ∈ w.mem.keys) (hplan : plan.scanType = .fullScan) :
    (scan plan).run env w =
      ⟨.ok ((DocumentStore.rows (tables w.disk plan.collection)).map fun r =>
        ⟨r.docId.getD "", r.doc⟩), w.mem, []⟩ := by
  have hrun := run_engine_scan hw hc (LockManager.blocked_of_alone henv _ .shared)
  rw [scan, hplan]
  exact Prog.run_bind_read hrun

/-- **A range scan** reads the documents the index lists. -/
theorem run_scan_range (plan : QueryPlan) {im : IndexManager} {field : String}
    (henv : env.Alone) (hw : Serving w) (him : w.mem.get? plan.collection = some im)
    (hplan : plan.scanType = .rangeScan) (hfield : plan.indexField = some field)
    (hhas : im.hasIndexFor field = true) : (scan plan).run env w =
      ⟨.ok ((im.rangeScan field (lowBound plan.indexLow) (highBound plan.indexHigh)).filterMap
        fun i => ((tables w.disk plan.collection).get i).map (Row.mk i)), w.mem, []⟩ := by
  have hc : plan.collection ∈ w.mem.keys := OrdDict.mem_keys_of_get? him
  rw [scan, hplan, hfield]
  refine (Prog.run_bind_read (run_rangeScan him hhas _ _)).trans ?_
  exact run_fetch henv hw hc _

/-- **An index lookup** reads the documents the index lists. -/
theorem run_scan_lookup (plan : QueryPlan) {im : IndexManager} {field : String}
    (henv : env.Alone) (hw : Serving w) (him : w.mem.get? plan.collection = some im)
    (hplan : plan.scanType = .indexLookup) (hfield : plan.indexField = some field)
    (hhas : im.hasIndexFor field = true) : (scan plan).run env w =
      ⟨.ok ((im.lookup field plan.indexValue).filterMap
        fun i => ((tables w.disk plan.collection).get i).map (Row.mk i)), w.mem, []⟩ := by
  have hc : plan.collection ∈ w.mem.keys := OrdDict.mem_keys_of_get? him
  have hlookup : (StorageEngine.lookup plan.collection field plan.indexValue).run env w = _ :=
    run_lookup hw him (Or.inl hhas) plan.indexValue
  rw [lookupIn, if_pos hhas] at hlookup
  rw [scan, hplan, hfield]
  exact (Prog.run_bind_read hlookup).trans (run_fetch henv hw hc _)

/-- The rows of a full scan are the live lines, under their ids. -/
theorem mem_fullRows {t : Table} (ht : t.WF) {row : Row} :
    row ∈ ((DocumentStore.rows t).map fun r => Row.mk (r.docId.getD "") r.doc) ↔
      ∃ r, t.liveRow row.id = some r ∧ row.doc = r.doc := by
  rw [List.mem_map]
  constructor
  · rintro ⟨r, hr, rfl⟩
    obtain ⟨i, hi⟩ := Table.mem_rows.mp hr
    obtain ⟨-, hid⟩ := (Table.liveRow_eq_some_iff_rows ht).mp hi
    rw [hid]
    exact ⟨r, hi, rfl⟩
  · rintro ⟨r, hr, hdoc⟩
    obtain ⟨hmem, hid⟩ := (Table.liveRow_eq_some_iff_rows ht).mp hr
    refine ⟨r, hmem, ?_⟩
    rw [hid, ← hdoc]
    rfl

/-- Fetched rows are the live documents among the ids, without their `_id`. -/
theorem mem_fetchedRows {t : Table} {ids : List String} {row : Row} :
    (row ∈ ids.filterMap fun i => (t.get i).map (Row.mk i)) ↔
      row.id ∈ ids ∧ ∃ r, t.liveRow row.id = some r ∧ row.doc = r.stripId := by
  simp only [List.mem_filterMap, Table.get_eq_map_liveRow, Option.map_eq_some_iff]
  constructor
  · rintro ⟨i, hi, _, ⟨r, hr, rfl⟩, rfl⟩
    exact ⟨hi, r, hr, rfl⟩
  · rintro ⟨hi, r, hr, hdoc⟩
    exact ⟨row.id, hi, r.stripId, ⟨r, hr, rfl⟩, by rw [← hdoc]⟩

/-- Predicates that return normally filter the rows. -/
theorem applyPredicates_eq_filter {predicates : List Callable} {rows : List Row}
    {keep : Row → Bool} (h : ∀ row ∈ rows, allHold row.doc predicates = .ok (keep row)) :
    applyPredicates predicates rows = .ok (rows.filter keep) := by
  induction rows with
  | nil => rfl
  | cons row rows ih =>
      rw [applyPredicates, h row List.mem_cons_self,
        ih fun row' hrow' => h row' (List.mem_cons_of_mem _ hrow'), List.filter_cons]
      rcases keep row with _ | _
      · rfl
      · rfl

/-- A scan with predicates that return normally. -/
theorem value_scanWhere {plan : QueryPlan} {predicates : List Callable} {rows : List Row}
    {keep : Row → Bool} (hscan : (scan plan).run env w = ⟨.ok rows, w.mem, []⟩)
    (h : ∀ row ∈ rows, allHold row.doc predicates = .ok (keep row)) :
    (scanWhere plan predicates).value env w = .ok (rows.filter keep) := by
  rw [Prog.value, scanWhere, Prog.run_bind_read hscan, applyPredicates_eq_filter h]
  rfl

end QueryExecutor

end JsonpySql
