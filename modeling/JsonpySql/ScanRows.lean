/-
JsonpySql/ScanRows.lean

What a row of a scan looks like.

A full scan yields the lines of the collection as they are.  A lookup and a
range scan only give ids, whose documents are fetched one by one, and a fetched
document comes without its `_id`: no row read through the ids is the row of a
full scan (`scan_rows_iff`).
-/
import JsonpySql.RangeQuery

namespace JsonpySql

open QueryExecutor

/-- The ids of a range scan: what the index lists, or the rows in the range
where there is no index. -/
def rangeIn (im : IndexManager) (t : Table) (field : String) (low high : PyVal) :
    Except String (List String) :=
  if im.hasIndexFor field then .ok (im.rangeScan field low high)
  else StorageEngine.filterInRange field low high (DocumentStore.rows t)

namespace QueryPlan

/-- The plan reads its documents by their ids. -/
def byIds (plan : QueryPlan) : Bool := plan.scanType ≠ .fullScan ∧ plan.indexField.isSome

/-- The ids a plan reads. -/
def listedIds (im : IndexManager) (t : Table) (plan : QueryPlan) : Except String (List String) :=
  match plan.scanType, plan.indexField with
  | .indexLookup, some field => .ok (lookupIn im t field plan.indexValue)
  | .rangeScan, some field => rangeIn im t field (lowBound plan.indexLow) (highBound plan.indexHigh)
  | _, _ => .ok []

end QueryPlan

section Rows

variable {env : Env} {w : Database} {plan : QueryPlan} {im : IndexManager} {t : Table}
  {c i : String} {r : Record}

/-- A range scan reads the index, or the table where there is none. -/
theorem run_rangeScan_eq (henv : env.Alone) (hw : Serving w) (him : w.mem.get? c = some im)
    (field : String) (low high : PyVal) :
    (StorageEngine.rangeScan c field low high).run env w =
      ⟨(rangeIn im (tables w.disk c) field low high).mapError .typeError, w.mem, []⟩ := by
  have hc : c ∈ w.mem.keys := OrdDict.mem_keys_of_get? him
  obtain ⟨lines, hl⟩ := Option.isSome_iff_exists.mp (hw c hc)
  rw [StorageEngine.rangeScan, Prog.run_bind_read (run_require hc),
    Prog.run_bind_read (run_indexManager him), rangeIn]
  split
  · rfl
  · refine (LockManager.run_locked (hw c hc)
      (LockManager.blocked_of_alone henv _ .shared) _).trans ?_
    rw [Prog.run_bind_read (DocumentStore.run_scan hl), tables_of_lines hl]
    rcases StorageEngine.filterInRange field low high
      (DocumentStore.rows (DocumentStore.table lines)) with msg | ids
    · rfl
    · rfl

/-- A plan that does not go by ids reads what a full scan reads. -/
theorem scan_of_not_byIds (h : plan.byIds = false) :
    scan plan = scan (.ofCollection plan.collection) := by
  unfold scan
  rcases plan with ⟨c, scanType, indexField, v, low, high, n, s, j, o, l, p, a⟩
  cases scanType <;> cases indexField <;> first | rfl | cases h

/-- A plan that goes by ids fetches their documents. -/
theorem scan_of_byIds (henv : env.Alone) (hw : Serving w)
    (him : w.mem.get? plan.collection = some im) (h : plan.byIds = true) {rows : List Row}
    (hrows : (scan plan).value env w = .ok rows) :
    ∃ ids, plan.listedIds im (tables w.disk plan.collection) = .ok ids ∧
      rows = ids.filterMap fun i => ((tables w.disk plan.collection).get i).map (Row.mk i) := by
  have hc := OrdDict.mem_keys_of_get? him
  obtain ⟨hscan, hsome⟩ := of_decide_eq_true h
  obtain ⟨field, hfield⟩ := Option.isSome_iff_exists.mp hsome
  rw [QueryPlan.listedIds, hfield]
  rcases hscanType : plan.scanType with _ | _ | _
  · have hlookup : (StorageEngine.lookup plan.collection field plan.indexValue).run env w = _ :=
      run_lookup hw him (Or.inr (LockManager.blocked_of_alone henv _ .shared)) plan.indexValue
    rw [Prog.value, scan, hscanType, hfield] at hrows
    rw [Prog.run_bind_read hlookup, run_fetch henv hw hc] at hrows
    exact ⟨_, rfl, (Except.ok.inj hrows).symm⟩
  · have hrange := run_rangeScan_eq henv hw him field (lowBound plan.indexLow)
      (highBound plan.indexHigh)
    rw [Prog.value, scan, hscanType, hfield] at hrows
    rcases hids : rangeIn im (tables w.disk plan.collection) field (lowBound plan.indexLow)
      (highBound plan.indexHigh) with msg | ids
    · rw [hids] at hrange
      rw [Prog.run_bind_error hrange] at hrows
      cases hrows
    · rw [hids] at hrange
      rw [Prog.run_bind_read hrange, run_fetch henv hw hc] at hrows
      exact ⟨ids, hids, (Except.ok.inj hrows).symm⟩
  · exact absurd hscanType hscan

/-- A document without its id is another document. -/
theorem stripId_ne (h : r.docId = some i) : r.stripId ≠ r.doc := by
  intro heq
  have hnone : r.stripId.get? "_id" = none := by rw [Record.stripId, OrdDict.get?_erase, if_pos rfl]
  rw [heq] at hnone
  rw [Record.docId, hnone] at h
  cases h

/-- A full scan has one row for an id. -/
theorem fullRow_unique (ht : t.WF) {row row' : Row}
    (h : row ∈ (DocumentStore.rows t).map fun r => Row.mk (r.docId.getD "") r.doc)
    (h' : row' ∈ (DocumentStore.rows t).map fun r => Row.mk (r.docId.getD "") r.doc)
    (hid : row'.id = row.id) : row.doc = row'.doc := by
  obtain ⟨r, hr, hdoc⟩ := (mem_fullRows ht).mp h
  obtain ⟨r', hr', hdoc'⟩ := (mem_fullRows ht).mp h'
  obtain rfl : r = r' := Option.some.inj (hr.symm.trans (hid ▸ hr'))
  rw [hdoc, hdoc']

/-- A fetched row is not the row of the full scan. -/
theorem exists_fullRow_ne (ht : t.WF) {ids : List String} {row : Row}
    (h : row ∈ ids.filterMap fun i => (t.get i).map (Row.mk i)) :
    ∃ row' ∈ (DocumentStore.rows t).map fun r => Row.mk (r.docId.getD "") r.doc,
      row'.id = row.id ∧ row.doc ≠ row'.doc := by
  obtain ⟨-, r, hr, hdoc⟩ := mem_fetchedRows.mp h
  refine ⟨⟨row.id, r.doc⟩, (mem_fullRows ht).mpr ⟨r, hr, rfl⟩, rfl, ?_⟩
  rw [hdoc]
  exact stripId_ne (ht _ _ (Table.liveRow_eq_some_iff.mp hr)).1

/-- **Rows of a scan.**  Every row of a plan has the id of a row of a full scan
of its collection, and that row's very document exactly when the plan does not
go by ids, or goes by ids none of which has a document. -/
theorem scan_rows_iff (henv : env.Alone) (hw : Serving w)
    (him : w.mem.get? plan.collection = some im) {rows : List Row}
    (hrows : (scan plan).value env w = .ok rows) :
    let t := tables w.disk plan.collection
    ∃ full, (scan (.ofCollection plan.collection)).value env w = .ok full ∧
      (∀ row ∈ rows, ∃ r ∈ full, r.id = row.id) ∧
      ((∀ row ∈ rows, ∀ r ∈ full, r.id = row.id → row.doc = r.doc) ↔
        plan.byIds = false ∨
          ∃ ids, plan.listedIds im t = .ok ids ∧ ∀ i ∈ ids, t.get i = none) := by
  intro t
  have ht : t.WF := tables_wf w.disk plan.collection
  have hscan := run_scan_full (.ofCollection plan.collection) henv hw
    (OrdDict.mem_keys_of_get? him) rfl
  refine ⟨_, congrArg Outcome.result hscan, ?_⟩
  rcases hids : plan.byIds with _ | _
  · have hsame := scan_of_not_byIds hids
    rw [Prog.value, hsame, hscan] at hrows
    obtain rfl := Except.ok.inj hrows
    refine ⟨fun row hrow => ⟨row, hrow, rfl⟩, iff_of_true ?_ (Or.inl rfl)⟩
    exact fun row hrow r hr hid => fullRow_unique ht hrow hr hid
  · obtain ⟨ids, hlisted, rfl⟩ := scan_of_byIds henv hw him hids hrows
    refine ⟨fun row hrow => ?_, ?_, ?_⟩
    · obtain ⟨r, hr, hid, -⟩ := exists_fullRow_ne ht hrow
      exact ⟨r, hr, hid⟩
    · -- where the rows agree there are none
      intro hsame
      refine Or.inr ⟨ids, hlisted, fun i hi => Option.eq_none_iff_forall_ne_some.mpr ?_⟩
      intro d hd
      have hrow : Row.mk i d ∈ ids.filterMap fun i => (t.get i).map (Row.mk i) :=
        List.mem_filterMap.mpr ⟨i, hi, by rw [hd]; rfl⟩
      obtain ⟨r, hr, hid, hne⟩ := exists_fullRow_ne ht hrow
      exact hne (hsame _ hrow r hr hid)
    · rintro (h | ⟨ids', hlisted', hnone⟩)
      · cases h
      · obtain rfl := Except.ok.inj (hlisted'.symm.trans hlisted)
        intro row hrow
        obtain ⟨i, hi, hget⟩ := List.mem_filterMap.mp hrow
        rw [hnone i hi] at hget
        cases hget

end Rows

/-- A range scan that finds the one person there is: only the row of the full
scan has an `_id`. -/
theorem range_row_without_id :
    Serving (agesDb 30) ∧ Indexed IndexManager.Exact "people" [⟨["age"], false⟩] (agesDb 30) ∧
      ∃ row r, (scan ((RangePredicate.between 18 65).plan "people" "age")).value onlyClient
          (agesDb 30) = .ok [row] ∧
        (scan (.ofCollection "people")).value onlyClient (agesDb 30) = .ok [r] ∧
        r.id = row.id ∧ row.doc.get? "_id" = none ∧ r.doc.get? "_id" = some (.str "1") := by
  obtain ⟨hw, hexact⟩ := exact_agesDb 30
  exact ⟨hw, hexact, _, _, rfl, rfl, rfl, rfl, rfl⟩

/-- A range scan without a field reads the collection as it is. -/
theorem scan_rows_people :
    ∃ row full, (scan { (RangePredicate.between 18 65).plan "people" "age" with
          indexField := none }).value onlyClient (agesDb 30) = .ok [row] ∧
      (scan (.ofCollection "people")).value onlyClient (agesDb 30) = .ok full ∧
      ∀ r ∈ full, r.id = row.id → row.doc = r.doc := by
  obtain ⟨hw, im, him, -, -⟩ := exact_agesDb 30
  have hrows : (scan { (RangePredicate.between 18 65).plan "people" "age" with
      indexField := none }).value onlyClient (agesDb 30) = .ok _ := rfl
  obtain ⟨full, hfull, -, hsame⟩ := scan_rows_iff onlyClient_alone hw him hrows
  exact ⟨_, full, hrows, hfull, hsame.mpr (Or.inl rfl) _ (List.mem_singleton.mpr rfl)⟩

end JsonpySql
