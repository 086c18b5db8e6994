/-
JsonpySql/StringQueries.lean

Equality queries on strings, with and without an index.

An index may list an id under a key its document no longer has, and it lists
values of different types under one printed key.  A query reads every document
listed again and asks the predicate, so neither shows: what counts is that the
index misses no live document and lists none twice under one key, and this holds
in every reachable state (`kept_covers`).
-/
import JsonpySql.Executor
import JsonpySql.Refiling

namespace JsonpySql

open StorageEngine QueryExecutor

/-! ### Indexes that cover the table -/

/-- No index misses a live document, or lists an id twice under one key. -/
structure IndexManager.Covers (im : IndexManager) (t : Table) : Prop where
  complete : im.Complete t
  tidy : ∀ e ∈ im.indexes, InvertedIndex.Tidy e.2

theorem IndexManager.Exact.covers {im : IndexManager} {t : Table} (h : im.Exact t) :
    im.Covers t where
  complete := h.complete
  tidy e he := (h e he).nodup

/-- **Everything clients do keeps it.** -/
theorem kept_covers : Kept IndexManager.Covers where
  op {op im t} hop ht h := by
    refine ⟨complete_op hop ht h.complete, ?_⟩
    cases op with
    | write op =>
        show ∀ e ∈ (op.newIndexes t im).indexes, _
        rw [op.indexes_newIndexes ht]
        exact tidy_refile h.tidy _ _ _
    | compact c => exact fun e he => (im.exact_rebuild ht e he).nodup
  entry {op im t} hop ht h := by
    refine ⟨complete_entry hop h.complete, ?_⟩
    rw [op.entry.viaJson.indexes_newIndexes ht]
    exact tidy_refile h.tidy _ _ _

/-! ### The predicates -/

/-- `lambda x: x[f] == s`. -/
def equalsString (x f s : String) (scope : String → Except PyErr PyVal) : Callable :=
  (Lambda.mk [x] (.compare (.subscript (.name x) (.constant (.str f)))
    [(.eq, .constant (.str s))]) scope).toCallable

/-- A predicate that always answers, and the same without the id. -/
def Callable.IgnoresId (p : Callable) : Prop :=
  ∀ d : Doc, ∃ b, p.test d = .ok b ∧ p.test (d.erase "_id") = .ok b

/-- What the predicates make of a document. -/
def accepts (predicates : List Callable) (d : Doc) : Bool :=
  match allHold d predicates with
  | .ok b => b
  | .error _ => false

section Predicates

variable {x f s : String} {scope : String → Except PyErr PyVal} {ps : List Callable} {d : Doc}
  {v : PyVal}

/-- The lambda compares the value in the field. -/
theorem test_equalsString (h : d.get? f = some v) :
    (equalsString x f s scope).test d = .ok (v.eq (.str s)) := by
  let names : String → Except PyErr PyVal :=
    fun id => if id = x then .ok (.dict d.entries) else scope id
  have hx : names x = .ok (.dict d.entries) := if_pos rfl
  have hfield := eval_field hx h
  have hcall : (PyExpr.compare (.subscript (.name x) (.constant (.str f)))
      [(.eq, .constant (.str s))]).eval names = .ok (.bool (v.eq (.str s))) := by
    rw [PyExpr.eval, hfield]
    rfl
  show (PyExpr.eval names _).map PyVal.truthy = _
  rw [hcall]
  rfl

theorem allHold_ignoresId (h : ∀ p ∈ ps, p.IgnoresId) (d : Doc) :
    ∃ b, allHold d ps = .ok b ∧ allHold (d.erase "_id") ps = .ok b := by
  induction ps with
  | nil => exact ⟨true, rfl, rfl⟩
  | cons p ps ih =>
      obtain ⟨b, hb, hb'⟩ := h p List.mem_cons_self d
      rw [allHold, allHold, hb, hb']
      rcases b with _ | _
      · exact ⟨false, rfl, rfl⟩
      · exact ih fun p' hp' => h p' (List.mem_cons_of_mem _ hp')

/-- On a document with the field the predicates answer, with and without the id
alike, and accept it only if the field holds the string. -/
theorem answers_equalsString (hps : ∀ p ∈ ps, p.IgnoresId) (hf : f ≠ "_id")
    (h : (d.get? f).isSome) :
    let predicates := equalsString x f s scope :: ps
    allHold d predicates = .ok (accepts predicates d) ∧
      allHold (d.erase "_id") predicates = .ok (accepts predicates (d.erase "_id")) ∧
      accepts predicates (d.erase "_id") = accepts predicates d ∧
      (accepts predicates d = true → d.get? f = some (.str s)) := by
  intro predicates
  obtain ⟨v, hv⟩ := Option.isSome_iff_exists.mp h
  obtain ⟨b, hb, hb', hstring⟩ : ∃ b, allHold d predicates = .ok b ∧
      allHold (d.erase "_id") predicates = .ok b ∧ (b = true → v = .str s) := by
    have herase : (d.erase "_id").get? f = some v := by rw [OrdDict.get?_erase, if_neg hf, hv]
    show ∃ b, allHold d (_ :: ps) = .ok b ∧ allHold _ (_ :: ps) = .ok b ∧ _
    rw [allHold, allHold, test_equalsString hv, test_equalsString herase, ok_bind, ok_bind]
    rcases heq : v.eq (.str s) with _ | _
    · exact ⟨false, rfl, rfl, nofun⟩
    · obtain ⟨b, hb, hb'⟩ := allHold_ignoresId hps d
      exact ⟨b, hb, hb', fun _ => (PyVal.eq_str_iff v s).mp heq⟩
  have haccepts : accepts predicates d = b := by rw [accepts, hb]
  have haccepts' : accepts predicates (d.erase "_id") = b := by rw [accepts, hb']
  rw [haccepts, haccepts', hv]
  exact ⟨hb, hb', rfl, fun hb => congrArg some (hstring hb)⟩

end Predicates

/-! ### The rows -/

section Rows

variable {t : Table} {ids : List String} {predicates : List Callable}

/-- The live documents of a list of ids, each once, are those of the table, if the
list misses none of those that are kept. -/
theorem perm_rows (ht : t.WF) (hnodup : ids.Nodup) {keep : Record → Bool}
    (hall : ∀ i r, t.liveRow i = some r → keep r = true → i ∈ ids) :
    ((ids.filterMap t.liveRow).filter keep).Perm ((DocumentStore.rows t).filter keep) := by
  -- a document is live under one id
  have hone : ∀ i j r, r ∈ t.liveRow i → r ∈ t.liveRow j → i = j := by
    intro i j r hi hj
    have hidi := ((Table.liveRow_eq_some_iff_rows ht).mp hi).2
    have hidj := ((Table.liveRow_eq_some_iff_rows ht).mp hj).2
    exact Option.some.inj (hidi.symm.trans hidj)
  have hrows : (DocumentStore.rows t).Nodup := (Table.nodup_docId_rows ht).of_map _
  refine (List.perm_ext_iff_of_nodup ((hnodup.filterMap hone).filter _)
    (hrows.filter _)).mpr fun r => ?_
  simp only [List.mem_filter, List.mem_filterMap, Table.mem_rows]
  constructor
  · rintro ⟨⟨i, -, hi⟩, hkeep⟩
    exact ⟨⟨i, hi⟩, hkeep⟩
  · rintro ⟨⟨i, hi⟩, hkeep⟩
    exact ⟨⟨i, hall i r hi hkeep, hi⟩, hkeep⟩

/-- What an index lookup keeps, without the ids. -/
theorem map_fetched (ids : List String) (haccepts : ∀ i r, t.liveRow i = some r →
      accepts predicates r.stripId = accepts predicates r.doc) :
    (((ids.filterMap fun i => (t.get i).map (Row.mk i)).filter
        fun row => accepts predicates row.doc).map fun row => row.doc.erase "_id") =
      ((ids.filterMap t.liveRow).filter fun r => accepts predicates r.doc).map
        Record.stripId := by
  induction ids with
  | nil => rfl
  | cons i ids ih =>
      rcases hrow : t.liveRow i with _ | r
      · rw [List.filterMap_cons, List.filterMap_cons, Table.get_eq_map_liveRow, hrow]
        exact ih
      · rw [List.filterMap_cons, List.filterMap_cons, Table.get_eq_map_liveRow, hrow]
        show (List.filter _ (Row.mk i r.stripId :: _)).map _ = _
        rw [List.filter_cons, List.filter_cons, haccepts i r hrow]
        rcases accepts predicates r.doc with _ | _
        · exact ih
        · exact congrArg₂ List.cons (OrdDict.erase_erase r.doc "_id") ih

end Rows

/-! ### The two plans -/

variable {env : Env} {w : Database} {c : String} {im : IndexManager} {f s : String}

/-- An index that covers the table lists every document with the string. -/
theorem IndexManager.Covers.mem_lookup {t : Table} (h : im.Covers t)
    (hindexed : ∃ spec ∈ im.specs, spec.fields = [f]) :
    (im.lookup f (.str s)).Nodup ∧ ∀ i r, t.liveRow i = some r →
      r.doc.get? f = some (.str s) → i ∈ im.lookup f (.str s) := by
  obtain ⟨e, he, hfields, hfind⟩ := IndexManager.findIndexFor_of_mem hindexed
  have hlookup : im.lookup f (.str s) = InvertedIndex.ids e.2 s := by
    rw [IndexManager.lookup, hfind]
    rfl
  rw [hlookup]
  refine ⟨h.tidy e he s, fun i r hrow hvalue => ?_⟩
  apply h.complete e he
  rw [IndexManager.keyOf, hrow, Option.map_some, IndexSpec.key_single hfields, Doc.get, hvalue]
  rfl

/-- **Both plans find the same rows** where the indexes cover the table. -/
theorem scanWhere_perm (henv : env.Alone) (hw : Serving w) (him : w.mem.get? c = some im)
    (hcovers : im.Covers (tables w.disk c)) (hindexed : ∃ spec ∈ im.specs, spec.fields = [f])
    (hf : f ≠ "_id") (hfield : ∀ r ∈ DocumentStore.rows (tables w.disk c), (r.doc.get? f).isSome)
    {ps : List Callable} (hps : ∀ p ∈ ps, p.IgnoresId) (x : String)
    (scope : String → Except PyErr PyVal) {lookupPlan scanPlan : QueryPlan}
    (hlookup : lookupPlan.collection = c ∧ lookupPlan.scanType = .indexLookup ∧
      lookupPlan.indexField = some f ∧ lookupPlan.indexValue = .str s)
    (hscan : scanPlan.collection = c ∧ scanPlan.scanType = .fullScan) :
    ∃ indexed full,
      (scanWhere lookupPlan (equalsString x f s scope :: ps)).value env w = .ok indexed ∧
      (scanWhere scanPlan (equalsString x f s scope :: ps)).value env w = .ok full ∧
      (indexed.map fun row => row.doc.erase "_id").Perm
        (full.map fun row => row.doc.erase "_id") := by
  obtain ⟨rfl, htype, hindex, hvalue⟩ := hlookup
  obtain ⟨hcollection, hfull⟩ := hscan
  let t := tables w.disk lookupPlan.collection
  let predicates := equalsString x f s scope :: ps
  have ht : t.WF := tables_wf w.disk lookupPlan.collection
  have hhas : im.hasIndexFor f = true := im.hasIndexFor_of_mem hindexed
  have hanswers : ∀ i r, t.liveRow i = some r →
      allHold r.doc predicates = .ok (accepts predicates r.doc) ∧
      allHold r.stripId predicates = .ok (accepts predicates r.stripId) ∧
      accepts predicates r.stripId = accepts predicates r.doc ∧
      (accepts predicates r.doc = true → r.doc.get? f = some (.str s)) := fun i r hrow =>
    answers_equalsString hps hf (hfield r (Table.mem_rows.mpr ⟨i, hrow⟩))
  have hindexedRows := run_scan_lookup lookupPlan henv hw him htype hindex hhas
  have hfullRows := run_scan_full scanPlan henv hw
    (hcollection ▸ OrdDict.mem_keys_of_get? him) hfull
  rw [hvalue] at hindexedRows
  rw [hcollection] at hfullRows
  -- what each plan keeps
  have hvalue₁ : (scanWhere lookupPlan predicates).value env w =
      .ok (((im.lookup f (.str s)).filterMap fun i => (t.get i).map (Row.mk i)).filter
        fun row => accepts predicates row.doc) := by
    refine value_scanWhere hindexedRows fun row hrow => ?_
    obtain ⟨-, r, hr, hdoc⟩ := mem_fetchedRows.mp hrow
    rw [hdoc]
    exact (hanswers row.id r hr).2.1
  have hvalue₂ : (scanWhere scanPlan predicates).value env w =
      .ok (((DocumentStore.rows t).map fun r => Row.mk (r.docId.getD "") r.doc).filter
        fun row => accepts predicates row.doc) := by
    refine value_scanWhere hfullRows fun row hrow => ?_
    obtain ⟨r, hr, hdoc⟩ := (mem_fullRows ht).mp hrow
    rw [hdoc]
    exact (hanswers row.id r hr).1
  refine ⟨_, _, hvalue₁, hvalue₂, ?_⟩
  obtain ⟨hnodup, hall⟩ := hcovers.mem_lookup (s := s) hindexed
  rw [map_fetched _ fun i r hrow => (hanswers i r hrow).2.2.1, List.filter_map, List.map_map]
  exact (perm_rows ht hnodup fun i r hrow hkeep =>
    hall i r hrow ((hanswers i r hrow).2.2.2 hkeep)).map Record.stripId

/-- **The index never changes the answer of a string query.**  After the creation
of a collection and any interleaving of direct operations and transactions with
clean documents: if every live document has a field other than `_id`, and there
is an index on it, then a lookup of a string in the index, filtered by
`x[f] == s` and further predicates that always answer and do not read `_id`,
yields the rows that a full scan yields so filtered, up to their order and their
ids. -/
theorem stringQuery_unaffected (w₀ : Database) (c : String) (specs : List IndexSpec) (drop : Bool)
    (es : List Event) (henv : env.Alone) (hw : Serving w₀)
    (hok : (createCollection c specs drop).value env w₀ = .ok ())
    (hreg : ∀ e ∈ es, ∀ op ∈ e.op?,
      op.collection ∈ ((createCollection c specs drop).exec env w₀).mem.keys)
    (hclean : ∀ e ∈ es, ∀ op ∈ e.op?, op.Clean)
    (hfresh : ∀ e ∈ es, ∀ file ∈ e.file?, w₀.disk.wal.get? file = none)
    (hcommit : Committable es) (hf : f ≠ "_id") (hindexed : ∃ spec ∈ specs, spec.fields = [f])
    {ps : List Callable} (hps : ∀ p ∈ ps, p.IgnoresId) (x s : String)
    (scope : String → Except PyErr PyVal) {lookupPlan scanPlan : QueryPlan}
    (hlookup : lookupPlan.collection = c ∧ lookupPlan.scanType = .indexLookup ∧
      lookupPlan.indexField = some f ∧ lookupPlan.indexValue = .str s)
    (hscan : scanPlan.collection = c ∧ scanPlan.scanType = .fullScan) :
    let run := createCollection c specs drop >>= fun _ => playAll es
    let w := run.exec env w₀
    let predicates := equalsString x f s scope :: ps
    run.value env w₀ = .ok () ∧ ∃ rows, (StorageEngine.scan c).value env w = .ok rows ∧
      ((∀ r ∈ rows, (r.doc.get? f).isSome) → ∃ indexed full,
        (scanWhere lookupPlan predicates).value env w = .ok indexed ∧
        (scanWhere scanPlan predicates).value env w = .ok full ∧
        (indexed.map fun row => row.doc.erase "_id").Perm
          (full.map fun row => row.doc.erase "_id")) := by
  intro run w predicates
  obtain ⟨hrun, hw', im, him, rfl, hcovers⟩ := kept_covers.playAll
    (fun hexact => hexact.covers) henv hw hok hreg hclean hfresh hcommit
  refine ⟨hrun, _, value_scan henv hw' (OrdDict.mem_keys_of_get? him), fun hfield => ?_⟩
  exact scanWhere_perm henv hw' him hcovers hindexed hf hfield hps x scope hlookup hscan

/-- The id of a document that was inserted over is still listed under the old
string. -/
theorem stringQuery_unaffected_users :
    let es : List Event :=
      [.engine (.write (.insert "users" "1" (OrdDict.ofList [("email", .str "a")]))),
        .buffer "a.wal" (.insert "users" "1" (OrdDict.ofList [("email", .str "b")])),
        .buffer "a.wal" (.insert "users" "2" (OrdDict.ofList [("email", .str "a")])),
        .commit "a.wal"]
    let w := (createCollection "users" [⟨["email"], true⟩] false >>=
      fun _ => playAll es).exec onlyClient emptyDb
    let lookupPlan : QueryPlan := ⟨"users", .indexLookup, some "email", .str "a", .none, .none, 2,
      none, none, false, false, false, false⟩
    let ageless : Callable := ⟨none, fun d => .ok (d.get? "age").isNone⟩
    let predicates := [equalsString "x" "email" "a" fun id => .error (.keyError id), ageless]
    ∃ indexed full, (scanWhere lookupPlan predicates).value onlyClient w = .ok indexed ∧
      (scanWhere (.ofCollection "users") predicates).value onlyClient w = .ok full ∧
      (indexed.map fun row => row.doc.erase "_id").Perm
        (full.map fun row => row.doc.erase "_id") := by
  intro es w lookupPlan ageless predicates
  have hps : ∀ p ∈ [ageless], p.IgnoresId := by
    intro p hp d
    obtain rfl := List.mem_singleton.mp hp
    refine ⟨(d.get? "age").isNone, rfl, ?_⟩
    show Except.ok ((d.erase "_id").get? "age").isNone = _
    rw [OrdDict.get?_erase, if_neg (by decide)]
  have hlookup : lookupPlan.collection = "users" ∧ lookupPlan.scanType = .indexLookup ∧
      lookupPlan.indexField = some "email" ∧ lookupPlan.indexValue = .str "a" :=
    ⟨rfl, rfl, rfl, rfl⟩
  have hscan : (QueryPlan.ofCollection "users").collection = "users" ∧
      (QueryPlan.ofCollection "users").scanType = .fullScan := ⟨rfl, rfl⟩
  obtain ⟨-, rows, hrows, hall⟩ := stringQuery_unaffected emptyDb "users" [⟨["email"], true⟩] false
    es onlyClient_alone emptyDb_serving rfl (by decide) (by decide) (fun _ _ _ _ => rfl) (by decide)
    (by decide : "email" ≠ "_id") ⟨_, List.mem_cons_self, rfl⟩ hps "x" "a"
    (fun id => .error (.keyError id)) hlookup hscan
  apply hall
  have hfield : ∀ r ∈ DocumentStore.rows (tables w.disk "users"),
      (r.doc.get? "email").isSome := by decide
  exact Except.ok.inj hrows ▸ hfield

end JsonpySql
