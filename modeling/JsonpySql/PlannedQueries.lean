/-
JsonpySql/PlannedQueries.lean

Queries through the planner, against full scans.

Whatever the first predicate is, the planner turns it into the keys of an index
that are to be read (`Access.Consults`), and the query yields a document once
for each of these keys that lists it.  An index lists a document under the key
it has and under those that inserts over it have left behind.  So the answer is
that of a full scan if every document is listed under just one key that is read
(`planned_rows_iff`).  Of strings the key of every document that is accepted is
read, unless it comes after the sentinel that stands for no upper bound
(`planned_strings_iff`).
-/
import JsonpySql.CommittedIndexes
import JsonpySql.LambdaSource
import JsonpySql.Paging
import JsonpySql.RangeQuery
import JsonpySql.StringQueries

namespace PyVal

variable {v : PyVal} {s : String} {op : OrderOp} {r : Bool}

theorem eq_of_str_eq (h : eq (.str s) v = true) : v = .str s := by
  rw [eq_comm_scalar] at h
  exact (eq_str_iff v s).mp h

/-- Only strings come before a string. -/
theorem eq_str_of_order_left (h : order op v (.str s) = .ok true) : ∃ t, v = .str t := by
  obtain ⟨a, rfl⟩ := exists_scalar_of_order_right h
  obtain ⟨t, s', rfl, -⟩ | ⟨x, y, -, hy⟩ := order_scalar_cases h
  · exact ⟨t, rfl⟩
  · cases hy

/-- Only strings come after a string. -/
theorem eq_str_of_order_right (h : order op (.str s) v = .ok true) : ∃ t, v = .str t := by
  obtain ⟨a, rfl⟩ := exists_scalar_of_order_left h
  obtain ⟨s', t, -, rfl⟩ | ⟨x, y, hx, -⟩ := order_scalar_cases h
  · exact ⟨t, rfl⟩
  · cases hx

end PyVal

namespace JsonpySql

open QueryExecutor

/-! ### What a plan reads -/

/-- The keys of the index whose ids a plan reads. -/
def Access.Consults (access : Access) (key : String) : Prop :=
  match access.scanType with
  | .indexLookup => key = access.indexValue.toStr
  | .rangeScan => (lowBound access.indexLow).toStr ≤ key ∧ key ≤ (highBound access.indexHigh).toStr
  | .fullScan => False

/-- A string that an open range does not reach. -/
def Access.Beyond (access : Access) (key : String) : Prop :=
  access.scanType = .rangeScan ∧ access.indexHigh = .none ∧ (highBound .none).toStr < key

/-- A predicate that does not read the id. -/
def Callable.Blind (p : Callable) : Prop := ∀ d : Doc, p.test (d.erase "_id") = p.test d

/-- The rows of a full scan. -/
def fullRows (t : Table) : List Row :=
  (DocumentStore.rows t).map fun r => ⟨r.docId.getD "", r.doc⟩

/-- Picking from a list gives the items of another one, each once, if every one of
them is there once. -/
theorem perm_filter_iff {α : Type*} [DecidableEq α] {l l' : List α} {p : α → Bool}
    (hnodup : l'.Nodup) (hmem : ∀ a ∈ l', p a = true) (hall : ∀ a, p a = true → a ∈ l') :
    (l.filter p).Perm l' ↔ ∀ a ∈ l', l.count a = 1 := by
  rw [List.perm_iff_count]
  constructor
  · intro h a ha
    have hcount := h a
    rwa [List.count_filter (hmem a ha), hnodup.count, if_pos ha] at hcount
  · intro h a
    rw [hnodup.count]
    split
    · next ha => rw [List.count_filter (hmem a ha), h a ha]
    · next ha =>
        apply List.count_eq_zero_of_not_mem
        intro hfilter
        exact ha (hall a (List.mem_filter.mp hfilter).2)

section Predicates

variable {ps : List Callable} {rows out : List Row}

theorem allHold_blind (h : ∀ p ∈ ps, p.Blind) (d : Doc) :
    allHold (d.erase "_id") ps = allHold d ps := by
  induction ps with
  | nil => rfl
  | cons p ps ih =>
      rw [allHold, allHold, h p List.mem_cons_self d,
        ih fun p' hp' => h p' (List.mem_cons_of_mem _ hp')]

theorem accepts_blind (h : ∀ p ∈ ps, p.Blind) (d : Doc) :
    accepts ps (d.erase "_id") = accepts ps d := by
  rw [accepts, accepts, allHold_blind h]

theorem allHold_eq_accepts {d : Doc} {b : Bool} (h : allHold d ps = .ok b) :
    allHold d ps = .ok (accepts ps d) := by
  rw [accepts, h]

/-- A filter that returns was answered on every row. -/
theorem applyPredicates_eq_ok (h : applyPredicates ps rows = .ok out) :
    (∀ row ∈ rows, allHold row.doc ps = .ok (accepts ps row.doc)) ∧
      out = rows.filter fun row => accepts ps row.doc := by
  have hanswers : ∀ row ∈ rows, allHold row.doc ps = .ok (accepts ps row.doc) := by
    induction rows generalizing out with
    | nil => exact fun row hrow => absurd hrow List.not_mem_nil
    | cons row rows ih =>
        rw [applyPredicates, bind_eq_ok_iff] at h
        obtain ⟨keep, hkeep, h⟩ := h
        obtain ⟨out', hrest, -⟩ := bind_eq_ok_iff.mp h
        refine List.forall_mem_cons.mpr ⟨allHold_eq_accepts hkeep, ih hrest⟩
  rw [applyPredicates_eq_filter hanswers] at h
  exact ⟨hanswers, (Except.ok.inj h).symm⟩

end Predicates

/-! ### The ids a plan reads -/

section Scans

variable {env : Env} {w : Database} {im : IndexManager} {s : Listing} {plan : QueryPlan}
  {field : String} {spec : IndexSpec} {t : Table} {ps : List Callable} {ids : List String}

/-- **A plan reads an id** once for each key it consults that lists the id. -/
theorem run_scan_listed (henv : env.Alone) (hw : Serving w) (hshows : s.Shows plan.collection w)
    (him : w.mem.get? plan.collection = some im) (hscan : plan.scanType ≠ .fullScan)
    (hfield : plan.indexField = some field)
    (hspec : im.specs.find? (fun spec => spec.fields = [field]) = some spec) :
    ∃ ids : List String, (scan plan).run env w =
        ⟨.ok (ids.filterMap fun i => ((tables w.disk plan.collection).get i).map (Row.mk i)),
          w.mem, []⟩ ∧
      ∀ i, ids.count i = 1 ↔
        ∃! key, plan.access.Consults key ∧ s.listed plan.collection spec i key := by
  rw [IndexManager.specs, List.find?_map, Option.map_eq_some_iff] at hspec
  obtain ⟨e, hfind, rfl⟩ := hspec
  obtain ⟨hhas, hlookup, he, -⟩ := IndexManager.lookup_of_find hfind plan.indexValue
  have htidy : InvertedIndex.Tidy e.2 := hshows.tidy im him e he
  have hlisted := hshows.mem_ids im him e he
  rcases hscanType : plan.scanType with _ | _ | _
  · refine ⟨_, run_scan_lookup plan henv hw him hscanType hfield hhas, fun i => ?_⟩
    have hconsults : ∀ key, plan.access.Consults key ↔ key = plan.indexValue.toStr := by
      intro key
      rw [Access.Consults, QueryPlan.access, hscanType]
    simp only [hlookup, hconsults, (htidy _).count, ← hlisted]
    constructor
    · intro hcount
      refine ⟨_, ⟨rfl, by_contra fun hnot => ?_⟩, fun key hkey => hkey.1⟩
      rw [if_neg hnot] at hcount
      cases hcount
    · rintro ⟨_, ⟨rfl, hi⟩, -⟩
      exact if_pos hi
  · refine ⟨_, run_scan_range plan henv hw him hscanType hfield hhas, fun i => ?_⟩
    have hidx : im.findIndexFor field = some e.2 := congrArg (Option.map Prod.snd) hfind
    have hselect : im.rangeScan field (lowBound plan.indexLow) (highBound plan.indexHigh) =
        InvertedIndex.select e.2 fun key => (lowBound plan.indexLow).toStr ≤ key ∧
          key ≤ (highBound plan.indexHigh).toStr := by
      rw [IndexManager.rangeScan, hidx]
      rfl
    have hconsults : ∀ key, plan.access.Consults key ↔
        (lowBound plan.indexLow).toStr ≤ key ∧ key ≤ (highBound plan.indexHigh).toStr := by
      intro key
      rw [Access.Consults, QueryPlan.access, hscanType]
    rw [hselect, htidy.count_select_eq_one_iff]
    simp only [decide_eq_true_eq, hconsults, hlisted]
  · exact absurd hscanType hscan

/-- The ids of the rows that a filter keeps. -/
theorem map_id_fetched (ids : List String) :
    ((ids.filterMap fun i => (t.get i).map (Row.mk i)).filter
        fun row => accepts ps row.doc).map Row.id =
      ids.filter fun i => (t.get i).any (accepts ps) := by
  induction ids with
  | nil => rfl
  | cons i ids ih =>
      rw [List.filterMap_cons, List.filter_cons]
      rcases t.get i with _ | d
      · exact ih
      · show (List.filter _ (Row.mk i d :: _)).map _ = if accepts ps d = true then _ else _
        rw [List.filter_cons]
        rcases accepts ps d with _ | _
        · exact ih
        · exact congrArg (List.cons i) ih

/-- The rows of a full scan have different ids. -/
theorem nodup_id_full (ht : t.WF) :
    ((fullRows t).map Row.id).Nodup := by
  rw [fullRows, List.map_map]
  refine ((Table.nodup_docId_rows ht).of_map _).map_on ?_
  intro r hr r' hr' heq
  obtain ⟨i, hi⟩ := Table.mem_rows.mp hr
  obtain ⟨j, hj⟩ := Table.mem_rows.mp hr'
  have hid : r.docId = some i := ((Table.liveRow_eq_some_iff_rows ht).mp hi).2
  have hid' : r'.docId = some j := ((Table.liveRow_eq_some_iff_rows ht).mp hj).2
  obtain rfl : i = j := by
    have hget : r.docId.getD "" = r'.docId.getD "" := heq
    rwa [hid, hid'] at hget
  exact Option.some.inj (hi.symm.trans hj)

/-- An id is among the rows a full scan keeps if its document is accepted. -/
theorem mem_id_full_iff (ht : t.WF) (hblind : ∀ p ∈ ps, p.Blind) {i : String} :
    i ∈ ((fullRows t).filter fun row => accepts ps row.doc).map Row.id ↔
      (t.get i).any (accepts ps) = true := by
  simp only [List.mem_map, List.mem_filter, fullRows, mem_fullRows ht]
  rw [Table.get_eq_map_liveRow]
  constructor
  · rintro ⟨row, ⟨⟨r, hr, hdoc⟩, hkeep⟩, rfl⟩
    rw [hr]
    show accepts ps r.stripId = true
    rw [Record.stripId, accepts_blind hblind, ← hdoc]
    exact hkeep
  · intro hany
    rcases hr : t.liveRow i with _ | r
    · rw [hr] at hany
      cases hany
    · rw [hr] at hany
      have hkeep : accepts ps (r.doc.erase "_id") = true := hany
      rw [accepts_blind hblind] at hkeep
      exact ⟨⟨i, r.doc⟩, ⟨⟨r, hr, rfl⟩, hkeep⟩, rfl⟩

/-- A full scan that returns was answered on every row. -/
theorem of_scanWhere_full (henv : env.Alone) (hw : Serving w) {scanPlan : QueryPlan}
    (hc : scanPlan.collection ∈ w.mem.keys) (hscan : scanPlan.scanType = .fullScan)
    {full : List Row} (hfull : (scanWhere scanPlan ps).value env w = .ok full) :
    let rows := fullRows (tables w.disk scanPlan.collection)
    (∀ row ∈ rows, allHold row.doc ps = .ok (accepts ps row.doc)) ∧
      full = rows.filter fun row => accepts ps row.doc := by
  intro rows
  have hrun : (scan scanPlan).run env w = ⟨.ok rows, w.mem, []⟩ :=
    run_scan_full scanPlan henv hw hc hscan
  apply applyPredicates_eq_ok
  rw [Prog.value, scanWhere, Prog.run_bind_read hrun] at hfull
  rcases happly : applyPredicates ps rows with e | rows'
  · rw [happly] at hfull
    cases hfull
  · rw [happly] at hfull
    exact hfull

/-- **An indexed scan against a full one**: where the full scan returns so does the
indexed one, its rows are rows of the full scan without their ids, and each is
there once if one of the consulted keys lists it. -/
theorem scanWhere_listed_iff (henv : env.Alone) (hw : Serving w)
    (hshows : s.Shows plan.collection w) (him : w.mem.get? plan.collection = some im)
    (hscan : plan.scanType ≠ .fullScan) (hfield : plan.indexField = some field)
    (hspec : im.specs.find? (fun spec => spec.fields = [field]) = some spec)
    (hblind : ∀ p ∈ ps, p.Blind) {full : List Row}
    (hanswers : ∀ row ∈ fullRows (tables w.disk plan.collection),
      allHold row.doc ps = .ok (accepts ps row.doc))
    (hfull : full = (fullRows (tables w.disk plan.collection)).filter
      fun row => accepts ps row.doc) :
    ∃ indexed, (scanWhere plan ps).value env w = .ok indexed ∧
      (∀ row ∈ indexed, ∃ r ∈ full, r.id = row.id ∧ row.doc = r.doc.erase "_id") ∧
      ((indexed.map Row.id).Perm (full.map Row.id) ↔ ∀ row ∈ full,
        ∃! key, plan.access.Consults key ∧ s.listed plan.collection spec row.id key) := by
  let t := tables w.disk plan.collection
  have ht : t.WF := tables_wf w.disk plan.collection
  obtain ⟨ids, hrun, hcount⟩ := run_scan_listed henv hw hshows him hscan hfield hspec
  -- a fetched row is answered as the row of the full scan is
  have hfetched : ∀ row ∈ ids.filterMap (fun i => (t.get i).map (Row.mk i)),
      ∃ r, t.liveRow row.id = some r ∧ row.doc = r.doc.erase "_id" ∧
        allHold row.doc ps = .ok (accepts ps row.doc) := by
    intro row hrow
    obtain ⟨-, r, hr, hdoc⟩ := mem_fetchedRows.mp hrow
    refine ⟨r, hr, hdoc, ?_⟩
    rw [hdoc, Record.stripId, allHold_blind hblind, accepts_blind hblind]
    exact hanswers ⟨row.id, r.doc⟩ ((mem_fullRows ht).mpr ⟨r, hr, rfl⟩)
  have hvalue : (scanWhere plan ps).value env w =
      .ok ((ids.filterMap fun i => (t.get i).map (Row.mk i)).filter
        fun row => accepts ps row.doc) := by
    refine value_scanWhere hrun fun row hrow => ?_
    obtain ⟨-, -, -, hanswer⟩ := hfetched row hrow
    exact hanswer
  refine ⟨_, hvalue, ?_, ?_⟩
  · intro row hrow
    obtain ⟨hrow, hkeep⟩ := List.mem_filter.mp hrow
    obtain ⟨r, hr, hdoc, -⟩ := hfetched row hrow
    rw [hdoc, accepts_blind hblind] at hkeep
    refine ⟨⟨row.id, r.doc⟩, ?_, rfl, hdoc⟩
    rw [hfull]
    exact List.mem_filter.mpr ⟨(mem_fullRows ht).mpr ⟨r, hr, rfl⟩, hkeep⟩
  · have hnodup : (full.map Row.id).Nodup :=
      hfull ▸ (nodup_id_full ht).sublist (List.filter_sublist.map Row.id)
    have hmem : ∀ i, i ∈ full.map Row.id ↔ (t.get i).any (accepts ps) = true :=
      fun i => hfull ▸ mem_id_full_iff ht hblind
    rw [map_id_fetched, perm_filter_iff hnodup (fun i => (hmem i).mp) fun i => (hmem i).mpr]
    simp only [hcount]
    exact List.forall_mem_map

end Scans

/-! ### The plan of a query -/

/-- `query(c).where(p).where(p')...`. -/
def filterQuery (c : String) (indexedFields : List String) (size threshold : ℕ)
    (ps : List Callable) : QueryBuilder :=
  ps.foldl QueryBuilder.where_ (.ofCollection c indexedFields size threshold)

section Builder

variable {env : Env} {w : Database} {c : String} {indexedFields : List String}
  {size threshold : ℕ} {plan : QueryPlan} {ps : List Callable}

theorem filterQuery_eq : filterQuery c indexedFields size threshold ps =
    ⟨c, indexedFields, size, threshold, 0, { QuerySpec.empty with predicates := ps }⟩ := by
  induction ps using List.reverseRecOn with
  | nil => rfl
  | append_singleton ps p ih =>
      rw [filterQuery, List.foldl_append, ← filterQuery, ih]
      rfl

theorem buildPlan_filterQuery : (filterQuery c indexedFields size threshold ps).buildPlan =
    (QueryPlanner.mk indexedFields size threshold).plan c ps none 0 false false false false := by
  rw [filterQuery_eq]
  rfl

/-- A plan uses no index, or one on a field the builder knows. -/
theorem access_of_buildPlan
    (h : (filterQuery c indexedFields size threshold ps).buildPlan = .ok plan) :
    plan.collection = c ∧
      (plan.scanType = .fullScan ∧ plan.indexField = none ∨
        plan.scanType ≠ .fullScan ∧ ∃ field ∈ indexedFields, plan.indexField = some field) := by
  rw [buildPlan_filterQuery] at h
  rcases ps with _ | ⟨fn, ps⟩
  · cases h
    exact ⟨rfl, Or.inl ⟨rfl, rfl⟩⟩
  obtain ⟨access, haccess, h⟩ := bind_eq_ok_iff.mp h
  cases h
  refine ⟨rfl, ?_⟩
  show access.scanType = .fullScan ∧ access.indexField = none ∨
    access.scanType ≠ .fullScan ∧ ∃ field ∈ indexedFields, access.indexField = some field
  rcases parsePredicate_cases haccess with rfl | ⟨lam, arg, -, -, hcases⟩
  · exact Or.inl ⟨rfl, rfl⟩
  · have hscan : access.scanType ≠ .fullScan := by
      rcases hcases with ⟨f, v, -, rfl⟩ | ⟨f, low, high, -, rfl⟩
      · intro h; cases h
      · intro h; cases h
    exact Or.inr ⟨hscan, Access.indexed_of_parsePredicate haccess hscan⟩

/-- A query of filters alone runs its plan. -/
theorem toList_filterQuery
    (hplan : (filterQuery c indexedFields size threshold ps).buildPlan = .ok plan) :
    (filterQuery c indexedFields size threshold ps).toList env w =
      ((scanWhere plan ps).value env w).map (List.map Row.doc) := by
  rw [QueryBuilder.toList, hplan, ok_bind, filterQuery_eq]
  exact toExcept_execute_predicates env w plan ps

/-- A builder that knows no index scans its collection. -/
theorem toList_unindexed {docs : List Doc}
    (h : (filterQuery c [] size threshold ps).toList env w = .ok docs) :
    ∃ scanPlan full, scanPlan.collection = c ∧ scanPlan.scanType = .fullScan ∧
      (scanWhere scanPlan ps).value env w = .ok full ∧ docs = full.map Row.doc := by
  obtain ⟨scanPlan, hplan, -⟩ := bind_eq_ok_iff.mp h
  rw [toList_filterQuery hplan] at h
  obtain ⟨hcollection, ⟨hscan, -⟩ | ⟨-, field, hfield, -⟩⟩ := access_of_buildPlan hplan
  · rcases hvalue : (scanWhere scanPlan ps).value env w with e | full
    · rw [hvalue] at h
      cases h
    · rw [hvalue] at h
      exact ⟨scanPlan, full, hcollection, hscan, hvalue, (Except.ok.inj h).symm⟩
  · exact absurd hfield List.not_mem_nil

/-- Plans of a full scan read the same. -/
theorem scanWhere_full_congr {plan' : QueryPlan} (hcollection : plan.collection = plan'.collection)
    (hscan : plan.scanType = .fullScan) (hscan' : plan'.scanType = .fullScan)
    (ps : List Callable) : scanWhere plan ps = scanWhere plan' ps := by
  rw [scanWhere, scanWhere, scan, scan, hscan, hscan', hcollection]

/-- What a query of filters returns, with and without indexes: the rows of a full
scan are accepted live lines, those of the planned query are among them but for
their ids. -/
structure Returned (env : Env) (w : Database) (c : String) (planned unindexed : QueryBuilder)
    (ps : List Callable) (indexed full : List Row) : Prop where
  planned_eq : planned.toList env w = .ok (indexed.map Row.doc)
  unindexed_eq : unindexed.toList env w = .ok (full.map Row.doc)
  live : ∀ row ∈ full, ∃ r, (tables w.disk c).liveRow row.id = some r ∧ row.doc = r.doc
  id_eq : ∀ row ∈ full, row.doc.get? "_id" = some (.str row.id)
  accepted : ∀ row ∈ full, allHold row.doc ps = .ok true
  subset : ∀ row ∈ indexed, ∃ r ∈ full, r.id = row.id ∧ row.doc.erase "_id" = r.doc.erase "_id"

/-- **A planned query where indexes list**: every row of a full scan is there once
if one of the consulted keys lists it. -/
theorem toList_listed_iff {s : Listing} {im : IndexManager} {docs : List Doc} (henv : env.Alone)
    (hw : Serving w) (hshows : s.Shows c w) (him : w.mem.get? c = some im)
    (hindexed : ∀ field ∈ indexedFields, ∃ spec ∈ im.specs, spec.fields = [field])
    (hblind : ∀ p ∈ ps, p.Blind)
    (hplan : (filterQuery c indexedFields size threshold ps).buildPlan = .ok plan)
    (hfull : (filterQuery c [] size threshold ps).toList env w = .ok docs) :
    ∃ indexed full, docs = full.map Row.doc ∧
      Returned env w c (filterQuery c indexedFields size threshold ps)
        (filterQuery c [] size threshold ps) ps indexed full ∧
      ((indexed.map Row.id).Perm (full.map Row.id) ↔ ∀ field, plan.indexField = some field →
        ∀ spec, im.specs.find? (fun spec => spec.fields = [field]) = some spec → ∀ row ∈ full,
          ∃! key, plan.access.Consults key ∧ s.listed c spec row.id key) := by
  obtain ⟨scanPlan, full, rfl, hscan, hvalue, rfl⟩ := toList_unindexed hfull
  obtain ⟨hanswers, hrows⟩ := of_scanWhere_full henv hw (OrdDict.mem_keys_of_get? him) hscan hvalue
  have ht : (tables w.disk scanPlan.collection).WF := tables_wf w.disk scanPlan.collection
  -- the rows of the full scan
  have hkept : ∀ row ∈ full, row ∈ fullRows (tables w.disk scanPlan.collection) ∧
      accepts ps row.doc = true := by
    intro row hrow
    rw [hrows] at hrow
    exact List.mem_filter.mp hrow
  have hlive : ∀ row ∈ full, ∃ r,
      (tables w.disk scanPlan.collection).liveRow row.id = some r ∧ row.doc = r.doc :=
    fun row hrow => (mem_fullRows ht).mp (hkept row hrow).1
  have hid : ∀ row ∈ full, row.doc.get? "_id" = some (.str row.id) := by
    intro row hrow
    obtain ⟨r, hr, hdoc⟩ := hlive row hrow
    rw [hdoc]
    exact Record.get?_id_of_docId ((Table.liveRow_eq_some_iff_rows ht).mp hr).2
  have haccepted : ∀ row ∈ full, allHold row.doc ps = .ok true := by
    intro row hrow
    obtain ⟨hmem, hkeep⟩ := hkept row hrow
    rw [hanswers row hmem, hkeep]
  obtain ⟨hcollection, ⟨hplanScan, hnone⟩ | ⟨hplanScan, field, hmem, hfield⟩⟩ :=
    access_of_buildPlan hplan
  · -- no index is used
    refine ⟨full, full, rfl, ⟨?_, hfull, hlive, hid, haccepted, ?_⟩, ?_⟩
    · rw [toList_filterQuery hplan, scanWhere_full_congr hcollection hplanScan hscan ps, hvalue]
      rfl
    · exact fun row hrow => ⟨row, hrow, rfl, rfl⟩
    · refine iff_of_true (List.Perm.refl _) fun field hfield => ?_
      rw [hnone] at hfield
      cases hfield
  · obtain ⟨spec, hspec⟩ := exists_find_spec.mp (hindexed field hmem)
    obtain ⟨indexed, hindexedValue, hsub, hperm⟩ := scanWhere_listed_iff henv hw
      (hcollection ▸ hshows) (hcollection ▸ him) hplanScan hfield hspec hblind
      (hcollection ▸ hanswers) (hcollection ▸ hrows)
    refine ⟨indexed, full, rfl, ⟨?_, hfull, hlive, hid, haccepted, ?_⟩, ?_⟩
    · rw [toList_filterQuery hplan, hindexedValue]
      rfl
    · intro row hrow
      obtain ⟨r, hr, hrid, hdoc⟩ := hsub row hrow
      refine ⟨r, hr, hrid, ?_⟩
      rw [hdoc, OrdDict.erase_erase]
    · rw [hperm, hcollection]
      constructor
      · intro h field' hfield' spec' hspec'
        obtain rfl : field = field' := Option.some.inj (hfield.symm.trans hfield')
        obtain rfl : spec = spec' := Option.some.inj (hspec.symm.trans hspec')
        exact h
      · exact fun h => h field hfield spec hspec

end Builder

/-! ### Strings -/

section Strings

variable {s f : String} {lam : Lambda} {d : Doc} {access : Access} {indexedFields : List String}

/-- No lower bound is the empty string, which comes first. -/
theorem lowBound_le {low : PyVal} (h : low = .none ∨ low.order .le (.str s) = .ok true) :
    (lowBound low).toStr ≤ s := by
  rcases h with rfl | h
  · exact empty_le s
  · obtain ⟨t, rfl⟩ := PyVal.eq_str_of_order_left h
    rw [PyVal.order_str] at h
    exact of_decide_eq_true (Except.ok.inj h)

/-- No upper bound is a sentinel, which some strings come after. -/
theorem le_highBound_iff {high : PyVal}
    (h : high = .none ∨ (PyVal.str s).order .le high = .ok true) :
    s ≤ (highBound high).toStr ↔ ¬(high = .none ∧ (highBound .none).toStr < s) := by
  rcases h with rfl | h
  · rw [and_iff_right rfl, String.not_lt]
  · obtain ⟨t, rfl⟩ := PyVal.eq_str_of_order_right h
    rw [PyVal.order_str] at h
    have hle : s ≤ t := of_decide_eq_true (Except.ok.inj h)
    refine iff_of_true hle ?_
    rintro ⟨hnone, -⟩
    cases hnone

/-- What a list of filters accepts, its first one does. -/
theorem accepts_of_allHold {ps : List Callable} (h : allHold d (lam.toCallable :: ps) = .ok true) :
    lam.Accepts d := by
  obtain ⟨b, hb, h⟩ := bind_eq_ok_iff.mp h
  obtain rfl : b = true := by
    cases b with
    | false => cases h
    | true => rfl
  have hmap : (lam.call d).map PyVal.truthy = .ok true := hb
  rcases hcall : lam.call d with e | v
  · rw [hcall] at hmap
    cases hmap
  · rw [hcall] at hmap
    exact ⟨v, hcall, Except.ok.inj hmap⟩

/-- **The key of an accepted string** is consulted, unless an open range does not
reach it. -/
theorem Access.consults_iff (hparse : parsePredicate lam.toCallable indexedFields = .ok access)
    (hfield : access.indexField = some f) (hd : d.get? f = some (.str s))
    (haccepts : lam.Accepts d) : access.Consults s ↔ ¬access.Beyond s := by
  have hindex : access ≠ .fail := by
    rintro rfl
    cases hfield
  have hselects := (Access.selects_iff hparse rfl hindex).mpr haccepts.screen
  rcases parsePredicate_cases hparse with rfl | ⟨lam', arg, -, -, hcases⟩
  · cases hfield
  rcases hcases with ⟨f', value, -, rfl⟩ | ⟨f', low, high, -, rfl⟩
  · obtain rfl := Option.some.inj hfield
    obtain ⟨x, hx, heq⟩ := hselects
    obtain rfl : x = .str s := Option.some.inj (hx.symm.trans hd)
    obtain rfl := PyVal.eq_of_str_eq heq
    refine iff_of_true rfl ?_
    rintro ⟨h, -⟩
    cases h
  · obtain rfl := Option.some.inj hfield
    obtain ⟨x, hx, hlow, hhigh⟩ := hselects
    obtain rfl : x = .str s := Option.some.inj (hx.symm.trans hd)
    show (lowBound low).toStr ≤ s ∧ s ≤ (highBound high).toStr ↔
      ¬(ScanType.rangeScan = .rangeScan ∧ high = .none ∧ (highBound .none).toStr < s)
    rw [and_iff_right (lowBound_le hlow), le_highBound_iff hhigh, and_iff_right rfl]

end Strings

/-! ### Queries after writes -/

section Writes

variable {env : Env} {w : Database} {im : IndexManager} {plan : QueryPlan} {c i field key : String}
  {indexedFields : List String} {size threshold : ℕ} {ps : List Callable} {ops : List WriteOp}
  {docs : List Doc} {T : String → Table}

/-- What is left behind is not the key of the document. -/
theorem DirectLeaves.ne (h : DirectLeaves T ops c i field key) (hclean : ∀ op ∈ ops, op.Clean) :
    keyIn field (lineAfter T ops c i) ≠ some key := by
  have hfields : (IndexSpec.mk [field] false).fields = [field] := rfl
  rw [← map_key_eq_keyIn hfields, ← rowAfter_directWriter]
  exact directWriter.rowAfter_ne_of_leftBehind ((leftBehind_direct hclean hfields).mpr h)

/-- **A query after direct writes**, from exact indexes: a document is listed under
its key and under those left behind. -/
theorem toList_written (henv : env.Alone) (hw : Serving w) (him : w.mem.get? c = some im)
    (hexact : im.Exact (tables w.disk c)) (hreg : ∀ op ∈ ops, op.collection ∈ w.mem.keys)
    (hclean : ∀ op ∈ ops, op.Clean)
    (hindexed : ∀ field ∈ indexedFields, ∃ spec ∈ im.specs, spec.fields = [field])
    (hblind : ∀ p ∈ ps, p.Blind)
    (hplan : (filterQuery c indexedFields size threshold ps).buildPlan = .ok plan)
    (hfull : (filterQuery c [] size threshold ps).toList env
      ((ops.forM WriteOp.direct).exec env w) = .ok docs) :
    ∃ indexed full, docs = full.map Row.doc ∧
      Returned env ((ops.forM WriteOp.direct).exec env w) c
        (filterQuery c indexedFields size threshold ps) (filterQuery c [] size threshold ps) ps
        indexed full ∧
      (∀ row ∈ full, ∀ field key, DirectLeaves (tables w.disk) ops c row.id field key →
        (row.doc.get field).toStr ≠ key) ∧
      ((indexed.map Row.id).Perm (full.map Row.id) ↔ ∀ field, plan.indexField = some field →
        ∀ row ∈ full, ∃! key, plan.access.Consults key ∧
          ((row.doc.get field).toStr = key ∨
            DirectLeaves (tables w.disk) ops c row.id field key)) := by
  obtain ⟨-, hw', hshows, hcatalog⟩ := (Listing.Shows.of_exact
    fun im' him' => Option.some.inj (him.symm.trans him') ▸ hexact).run_direct henv hw hreg
  obtain ⟨im', him', hspecs⟩ := exists_of_catalog (hcatalog ▸ get?_catalog him)
  obtain ⟨indexed, full, hdocs, hreturned, hperm⟩ := toList_listed_iff henv hw' hshows him'
    (hspecs ▸ hindexed) hblind hplan hfull
  -- the line of a row is what the writes leave
  have hkey : ∀ row ∈ full, ∀ field,
      keyIn field (lineAfter (tables w.disk) ops c row.id) = some (row.doc.get field).toStr := by
    intro row hrow field
    obtain ⟨r, hr, hdoc⟩ := hreturned.live row hrow
    rw [hshows.tables_eq, Writer.foldl_table] at hr
    rw [← liveRow_run (tables w.disk) ops c row.id, hdoc]
    exact congrArg (keyIn field) hr
  refine ⟨indexed, full, hdocs, hreturned, ?_, ?_⟩
  · intro row hrow field key hleaves heq
    exact hleaves.ne hclean ((hkey row hrow field).trans (congrArg some heq))
  · have hlisted : ∀ spec field, spec.fields = [field] → ∀ row ∈ full, ∀ key,
        (ops.foldl directWriter.step (Listing.exact (tables w.disk))).listed c spec row.id key ↔
          (row.doc.get field).toStr = key ∨
            DirectLeaves (tables w.disk) ops c row.id field key := by
      intro spec field hfields row hrow key
      rw [listed_direct_iff hclean hfields, hkey row hrow, Option.some_inj]
    rw [hperm]
    refine forall_congr' fun field => ?_
    constructor
    · intro h hfield row hrow
      obtain ⟨-, hplan' | ⟨-, field', hmem, hfield'⟩⟩ := access_of_buildPlan hplan
      · rw [hplan'.2] at hfield
        cases hfield
      obtain rfl : field = field' := Option.some.inj (hfield.symm.trans hfield')
      obtain ⟨spec, hspec⟩ := exists_find_spec.mp (hspecs ▸ hindexed field hmem)
      have hone := h hfield spec hspec row hrow
      simpa only [hlisted spec field (fields_of_find hspec) row hrow] using hone
    · intro h hfield spec hspec row hrow
      simpa only [hlisted spec field (fields_of_find hspec) row hrow] using h hfield row hrow

/-- **A planned query against a full scan.**  Take a database whose indexes are
exact, any sequence of direct writes of clean documents, inserts over live ones
among them, and a query of any filters that do not read the id.  Where a full
scan returns, the planned query returns rows of the full scan, without their
ids; and it returns each of them once just if, for each, exactly one of the
keys the plan consults is the document's own or one that an insert over it has
left behind. -/
theorem planned_rows_iff (henv : env.Alone) (hw : Serving w) (him : w.mem.get? c = some im)
    (hexact : im.Exact (tables w.disk c)) (hreg : ∀ op ∈ ops, op.collection ∈ w.mem.keys)
    (hclean : ∀ op ∈ ops, op.Clean)
    (hindexed : ∀ field ∈ indexedFields, ∃ spec ∈ im.specs, spec.fields = [field])
    (hblind : ∀ p ∈ ps, p.Blind)
    (hplan : (filterQuery c indexedFields size threshold ps).buildPlan = .ok plan)
    (hfull : (filterQuery c [] size threshold ps).toList env
      ((ops.forM WriteOp.direct).exec env w) = .ok docs) :
    let w' := (ops.forM WriteOp.direct).exec env w
    ∃ indexed full : List Row, docs = full.map Row.doc ∧
      (filterQuery c indexedFields size threshold ps).toList env w' =
        .ok (indexed.map Row.doc) ∧
      (∀ row ∈ full, row.doc.get? "_id" = some (.str row.id)) ∧
      (∀ row ∈ indexed, ∃ r ∈ full, r.id = row.id ∧ row.doc.erase "_id" = r.doc.erase "_id") ∧
      ((indexed.map Row.id).Perm (full.map Row.id) ↔ ∀ field, plan.indexField = some field →
        ∀ row ∈ full, ∃! key, plan.access.Consults key ∧
          ((row.doc.get field).toStr = key ∨
            DirectLeaves (tables w.disk) ops c row.id field key)) := by
  obtain ⟨indexed, full, hdocs, hreturned, -, hperm⟩ := toList_written henv hw him hexact hreg
    hclean hindexed hblind hplan hfull
  exact ⟨indexed, full, hdocs, hreturned.planned_eq, hreturned.id_eq, hreturned.subset, hperm⟩

/-- `lambda x: x['email'] >= 'a'`. -/
def emailFromA : Lambda :=
  ⟨["x"], .compare (fieldExpr "x" "email") [(.order .ge, .constant (.str "a"))],
    fun id => .error (.keyError id)⟩

theorem emailFromA_blind : emailFromA.toCallable.Blind := by
  intro d
  have hlookup : (d.erase "_id").entries.lookup "email" = d.entries.lookup "email" :=
    (OrdDict.get?_erase d "_id" "email").trans (if_neg (by decide))
  have hcall : ∀ d : Doc, emailFromA.call d =
      (PyVal.dict d.entries).getItem (.str "email") >>= fun v =>
        CmpOp.apply (.order .ge) v (.str "a") := by
    intro d
    show PyExpr.eval _ (.compare _ _) = _
    rw [PyExpr.eval, fieldExpr, PyExpr.eval, PyExpr.eval, PyExpr.eval, if_pos rfl]
    refine congrArg _ (funext fun v => ?_)
    rw [PyExpr.evalComparisons, PyExpr.eval, ok_bind]
    rcases CmpOp.apply (.order .ge) v (.scalar (.str "a")) with e | r
    · rfl
    · rfl
  show (emailFromA.call _).map _ = (emailFromA.call _).map _
  rw [hcall, hcall, PyVal.getItem, PyVal.getItem, hlookup]

/-- The index of the users is on the email. -/
theorem emails_indexed : ∀ field ∈ ["email"], ∃ spec ∈ [(⟨["email"], true⟩ : IndexSpec)],
    spec.fields = [field] := by
  intro field hfield
  obtain rfl := List.mem_singleton.mp hfield
  exact ⟨_, List.mem_singleton.mpr rfl, rfl⟩

/-- A user that is inserted over is found under both strings. -/
theorem planned_rows_twice :
    let ops : List WriteOp := [.insert "users" "1" (OrdDict.ofList [("email", .str "b")]),
      .insert "users" "1" (OrdDict.ofList [("email", .str "c")])]
    let w := (ops.forM WriteOp.direct).exec onlyClient usersDb
    let ps := [emailFromA.toCallable]
    ∃ indexed full : List Row,
      (filterQuery "users" ["email"] 1 10000 ps).toList onlyClient w =
        .ok (indexed.map Row.doc) ∧
      (filterQuery "users" [] 1 10000 ps).toList onlyClient w = .ok (full.map Row.doc) ∧
      ¬(indexed.map Row.id).Perm (full.map Row.id) := by
  intro ops w ps
  have hreg : ∀ op ∈ ops, op.collection ∈ usersDb.mem.keys := by decide
  have hblind : ∀ p ∈ ps, p.Blind := List.forall_mem_singleton.mpr emailFromA_blind
  have hfull : (filterQuery "users" [] 1 10000 ps).toList onlyClient w =
      .ok [(Record.ofDoc "1" (OrdDict.ofList [("email", .str "c")])).doc] := rfl
  obtain ⟨indexed, full, hdocs, hplanned, hid, -, hperm⟩ := planned_rows_iff
    onlyClient_alone usersDb_serving rfl (usersDb_exact "users" _ rfl) hreg (by decide)
    emails_indexed hblind rfl hfull
  obtain ⟨row, rfl, hdoc⟩ := List.map_eq_singleton_iff.mp hdocs.symm
  refine ⟨indexed, [row], hplanned, hdocs ▸ hfull, fun h => ?_⟩
  obtain ⟨i, d⟩ := row
  obtain rfl : d = (Record.ofDoc "1" (OrdDict.ofList [("email", .str "c")])).doc := hdoc
  obtain rfl : "1" = i := by
    have hi := Option.some.inj (hid _ (List.mem_singleton.mpr rfl))
    exact congrArg PyVal.toStr hi
  obtain ⟨key, -, hone⟩ := hperm.mp h "email" rfl _ (List.mem_singleton.mpr rfl)
  have hleft : DirectLeaves (tables usersDb.disk) ops "users" "1" "email" "b" := by
    refine ⟨[.insert "users" "1" (OrdDict.ofList [("email", .str "b")])], _, [], rfl, rfl, rfl,
      rfl, ?_⟩
    intro op hop _
    obtain rfl := List.mem_singleton.mp hop
    decide
  have hb : "b" = key := by
    apply hone
    refine ⟨⟨?_, ?_⟩, Or.inr hleft⟩
    · decide
    · decide
  have hc : "c" = key := by
    apply hone
    refine ⟨⟨?_, ?_⟩, Or.inl rfl⟩
    · decide
    · decide
  exact absurd (hb.trans hc.symm) (by decide)

/-- One key of those consulted, where the own one is consulted or not. -/
theorem existsUnique_key_iff {P Q : String → Prop} {s : String} (hs : ¬Q s) :
    (∃! key, P key ∧ (s = key ∨ Q key)) ↔
      (P s → ∀ key, Q key → ¬P key) ∧ (¬P s → ∃! key, P key ∧ Q key) := by
  constructor
  · rintro ⟨key, ⟨hP, hkey⟩, hone⟩
    refine ⟨fun hown key' hQ hP' => ?_, fun hnot => ?_⟩
    · -- both the own key and another one would be consulted
      have hsame : key' = s := (hone key' ⟨hP', Or.inr hQ⟩).trans (hone s ⟨hown, Or.inl rfl⟩).symm
      exact hs (hsame ▸ hQ)
    · rcases hkey with rfl | hQ
      · exact absurd hP hnot
      · exact ⟨key, ⟨hP, hQ⟩, fun key' h => hone key' ⟨h.1, Or.inr h.2⟩⟩
  · rintro ⟨hown, hother⟩
    by_cases hP : P s
    · refine ⟨s, ⟨hP, Or.inl rfl⟩, ?_⟩
      rintro key ⟨hkey, rfl | hQ⟩
      · rfl
      · exact absurd hkey (hown hP key hQ)
    · obtain ⟨key, ⟨hkey, hQ⟩, hone⟩ := hother hP
      refine ⟨key, ⟨hkey, Or.inr hQ⟩, ?_⟩
      rintro key' ⟨hkey', rfl | hQ'⟩
      · exact absurd hkey' hP
      · exact hone key' ⟨hkey', hQ'⟩

/-- **A planned query on strings.**  In the same runs let the first filter be any
lambda, and let the documents it accepts hold strings in the indexed fields.
Then the planned query returns the rows of a full scan, each once, just if
every accepted document that the range reaches has left no key behind that the
plan consults, and every one that it does not reach, which comes after the
sentinel of an open range, has left just one. -/
theorem planned_strings_iff (lam : Lambda) (henv : env.Alone) (hw : Serving w)
    (him : w.mem.get? c = some im) (hexact : im.Exact (tables w.disk c))
    (hreg : ∀ op ∈ ops, op.collection ∈ w.mem.keys) (hclean : ∀ op ∈ ops, op.Clean)
    (hindexed : ∀ field ∈ indexedFields, ∃ spec ∈ im.specs, spec.fields = [field])
    (hblind : ∀ p ∈ lam.toCallable :: ps, p.Blind)
    (hplan : (filterQuery c indexedFields size threshold (lam.toCallable :: ps)).buildPlan =
      .ok plan)
    (hfull : (filterQuery c [] size threshold (lam.toCallable :: ps)).toList env
      ((ops.forM WriteOp.direct).exec env w) = .ok docs)
    (hstrings : ∀ d ∈ docs, ∀ field ∈ indexedFields, ∃ s, d.get? field = some (.str s)) :
    let w' := (ops.forM WriteOp.direct).exec env w
    ∃ indexed full : List Row, docs = full.map Row.doc ∧
      (filterQuery c indexedFields size threshold (lam.toCallable :: ps)).toList env w' =
        .ok (indexed.map Row.doc) ∧
      (∀ row ∈ full, row.doc.get? "_id" = some (.str row.id)) ∧
      ((indexed.map Row.id).Perm (full.map Row.id) ↔ ∀ field, plan.indexField = some field →
        ∀ row ∈ full, ∀ s, row.doc.get? field = some (.str s) →
          (¬plan.access.Beyond s → ∀ key, DirectLeaves (tables w.disk) ops c row.id field key →
            ¬plan.access.Consults key) ∧
          (plan.access.Beyond s → ∃! key, plan.access.Consults key ∧
            DirectLeaves (tables w.disk) ops c row.id field key)) := by
  obtain ⟨indexed, full, rfl, hreturned, hleaves, hperm⟩ := toList_written henv hw him hexact hreg
    hclean hindexed hblind hplan hfull
  refine ⟨indexed, full, rfl, hreturned.planned_eq, hreturned.id_eq, ?_⟩
  have haccess : parsePredicate lam.toCallable indexedFields = .ok plan.access := by
    rw [buildPlan_filterQuery] at hplan
    exact QueryPlanner.plan_access hplan
  have hrow : ∀ field, plan.indexField = some field → ∀ row ∈ full, ∀ s,
      row.doc.get? field = some (.str s) →
      ((∃! key, plan.access.Consults key ∧ ((row.doc.get field).toStr = key ∨
          DirectLeaves (tables w.disk) ops c row.id field key)) ↔
        (¬plan.access.Beyond s → ∀ key, DirectLeaves (tables w.disk) ops c row.id field key →
            ¬plan.access.Consults key) ∧
          (plan.access.Beyond s → ∃! key, plan.access.Consults key ∧
            DirectLeaves (tables w.disk) ops c row.id field key)) := by
    intro field hfield row hrow s hs
    have hkey : (row.doc.get field).toStr = s := by
      rw [Doc.get, hs]
      rfl
    have hconsults := Access.consults_iff haccess hfield hs
      (accepts_of_allHold (hreturned.accepted row hrow))
    rw [hkey, existsUnique_key_iff fun h => hleaves row hrow field s h hkey, hconsults, not_not]
  rw [hperm]
  refine forall_congr' fun field => forall_congr' fun hfield => forall_congr' fun row =>
    forall_congr' fun hmem => ?_
  constructor
  · exact fun h s hs => (hrow field hfield row hmem s hs).mp h
  · intro h
    obtain ⟨-, hplan' | ⟨-, field', hmem', hfield'⟩⟩ := access_of_buildPlan hplan
    · rw [hplan'.2] at hfield
      cases hfield
    obtain rfl : field = field' := Option.some.inj (hfield.symm.trans hfield')
    obtain ⟨s, hs⟩ := hstrings row.doc (List.mem_map_of_mem hmem) field hmem'
    exact (hrow field hfield row hmem s hs).mpr (h s hs)

/-- A user that is changed is found once. -/
theorem planned_strings_once :
    let ops : List WriteOp := [.insert "users" "1" (OrdDict.ofList [("email", .str "b")]),
      .update "users" "1" (OrdDict.ofList [("email", .str "c")])]
    let w := (ops.forM WriteOp.direct).exec onlyClient usersDb
    let ps := [emailFromA.toCallable]
    ∃ indexed full : List Row,
      (filterQuery "users" ["email"] 1 10000 ps).toList onlyClient w =
        .ok (indexed.map Row.doc) ∧
      (filterQuery "users" [] 1 10000 ps).toList onlyClient w = .ok (full.map Row.doc) ∧
      (indexed.map Row.id).Perm (full.map Row.id) := by
  intro ops w ps
  have hreg : ∀ op ∈ ops, op.collection ∈ usersDb.mem.keys := by decide
  have hblind : ∀ p ∈ ps, p.Blind := List.forall_mem_singleton.mpr emailFromA_blind
  have hfull : (filterQuery "users" [] 1 10000 ps).toList onlyClient w =
      .ok [(Record.ofDoc "1" (OrdDict.ofList [("email", .str "c")])).doc] := rfl
  have hstrings : ∀ d ∈ [(Record.ofDoc "1" (OrdDict.ofList [("email", .str "c")])).doc],
      ∀ field ∈ ["email"], ∃ s, d.get? field = some (.str s) := by
    intro d hd field hfield
    obtain rfl := List.mem_singleton.mp hd
    obtain rfl := List.mem_singleton.mp hfield
    exact ⟨"c", rfl⟩
  obtain ⟨indexed, full, hdocs, hplanned, -, hperm⟩ := planned_strings_iff emailFromA
    onlyClient_alone usersDb_serving rfl (usersDb_exact "users" _ rfl) hreg (by decide)
    emails_indexed hblind rfl hfull hstrings
  obtain ⟨row, rfl, hdoc⟩ := List.map_eq_singleton_iff.mp hdocs.symm
  refine ⟨indexed, [row], hplanned, hdocs ▸ hfull, hperm.mpr fun field hfield row' hrow s hs => ?_⟩
  obtain rfl : row' = row := List.mem_singleton.mp hrow
  obtain rfl : "email" = field := Option.some.inj hfield
  obtain rfl : "c" = s := by
    rw [hdoc] at hs
    exact congrArg PyVal.toStr (Option.some.inj hs)
  have hreached : ¬(⟨.rangeScan, some "email", .none, .str "a", .none⟩ : Access).Beyond "c" := by
    rintro ⟨-, -, hlt⟩
    exact absurd hlt (by decide)
  refine ⟨fun _ key hleft => ?_, fun hbeyond => absurd hbeyond hreached⟩
  -- the insert is the first operation, and finds nothing
  obtain ⟨_ | ⟨op', earlier⟩, op, later, hops, -, hinsert, hkey, -⟩ := hleft
  · cases hkey
  · have hrest : [WriteOp.update "users" "1" (OrdDict.ofList [("email", .str "c")])] =
        earlier ++ op :: later := (List.cons.inj hops).2
    have hop : op ∈ earlier ++ op :: later := List.mem_append_right _ List.mem_cons_self
    obtain rfl := List.mem_singleton.mp (hrest ▸ hop)
    cases hinsert

end Writes

end JsonpySql
