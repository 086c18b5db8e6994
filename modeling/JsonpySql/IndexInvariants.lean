/-
JsonpySql/IndexInvariants.lean

The indexes of a collection over whole runs, from its creation on.

* No index ever misses a live document (`indexes_complete`), whatever clients
  do: every write files the document under its new key, and what it removes
  from under the old key is only the id that is filed again or gone.
* If no live document is inserted over, every index is exact
  (`indexes_exact`): then what a write removes is all there was.

Both follow one table, the one of the created collection, through the changes
of all collections (`Indexed`).
-/
import JsonpySql.Collections
import JsonpySql.Refinement
import JsonpySql.Transactions

namespace JsonpySql

open StorageEngine

/-! ### Index managers -/

namespace IndexManager

variable {im : IndexManager} {t t' : Table} {docId : String} {document : Doc} {r : Record}

theorem Complete.congr (h : im.Complete t) (ht : ∀ docId, t.liveRow docId = t'.liveRow docId) :
    im.Complete t' := by
  intro e he
  rw [← keyOf_congr ht]
  exact h e he

theorem Exact.congr (h : im.Exact t) (ht : ∀ docId, t.liveRow docId = t'.liveRow docId) :
    im.Exact t' := by
  intro e he
  rw [← keyOf_congr ht]
  exact h e he

/-- Completeness survives a replacement, whatever the old document was taken
to be. -/
theorem Complete.replaceInIndexes (h : im.Complete t) (old : Option Doc)
    (hr : ∀ field, document.get field = Doc.get r.doc field) :
    (im.replaceInIndexes docId old document).Complete (t.set docId (some r)) := by
  cases old with
  | none => exact h.addToIndexes hr
  | some old =>
      have hadd : ((im.removeFromIndexes docId old).addToIndexes docId document).Complete
          ((t.set docId none).set docId (some r)) :=
        (h.removeFromIndexes docId old).addToIndexes hr
      rw [OrdDict.set_set] at hadd
      exact hadd

theorem Complete.dropFromIndexes (h : im.Complete t) (old : Option Doc) :
    (im.dropFromIndexes docId old).Complete (t.set docId none) := by
  cases old with
  | none => exact h.set_none docId
  | some old => exact h.removeFromIndexes docId old

/-- What was read where a row is has the fields of the row. -/
theorem exists_read_of_liveRow {old : Option Doc} {r₀ : Record}
    (hold : ∀ field, old.map (Doc.get · field) =
      (t.liveRow docId).map fun r => Doc.get r.doc field)
    (hrow : t.liveRow docId = some r₀) :
    ∃ d, old = some d ∧ ∀ field, d.get field = Doc.get r₀.doc field := by
  simp only [hrow, Option.map_some, Option.map_eq_some_iff] at hold
  obtain ⟨d, rfl, -⟩ := hold ""
  exact ⟨d, rfl, fun field => by simpa using hold field⟩

/-- Exactness survives a replacement of the document that is there. -/
theorem Exact.replaceInIndexes (h : im.Exact t)
    (hr : ∀ field, document.get field = Doc.get r.doc field) {old : Option Doc}
    (hold : ∀ field, old.map (Doc.get · field) =
      (t.liveRow docId).map fun r => Doc.get r.doc field) :
    (im.replaceInIndexes docId old document).Exact (t.set docId (some r)) := by
  rcases hrow : t.liveRow docId with _ | r₀
  -- nothing was there: the document is filed as a new one
  · obtain rfl : old = none := by simpa [hrow] using hold ""
    exact h.addToIndexes hrow hr
  -- the old document is removed under the key it was filed under
  · obtain ⟨d, rfl, hget⟩ := exists_read_of_liveRow hold hrow
    have hgone : Table.liveRow (t.set docId none) docId = none := by
      rw [Table.liveRow_set, if_pos rfl]
    have hadd := (h.removeFromIndexes hrow hget).addToIndexes hgone hr
    rw [OrdDict.set_set] at hadd
    exact hadd

/-- Exactness survives the removal of the document that is there. -/
theorem Exact.dropFromIndexes (h : im.Exact t) {old : Option Doc}
    (hold : ∀ field, old.map (Doc.get · field) =
      (t.liveRow docId).map fun r => Doc.get r.doc field) :
    (im.dropFromIndexes docId old).Exact (t.set docId none) := by
  rcases hrow : t.liveRow docId with _ | r₀
  · obtain rfl : old = none := by simpa [hrow] using hold ""
    exact h.set_none hrow
  · obtain ⟨d, rfl, hget⟩ := exists_read_of_liveRow hold hrow
    exact h.removeFromIndexes hrow hget

end IndexManager

/-! ### Operations -/

section Operations

variable {im : IndexManager} {t : Table}

/-- What a clean write leaves in the table: nothing, or its document under its
id. -/
theorem WriteOp.slot_line {op : WriteOp} (h : op.Clean) :
    (op.document = none ∧ op.line.slot = none) ∨
      ∃ d, op.document = some d ∧ op.line.slot = some op.line ∧
        op.line.doc = withId d op.docId := by
  rcases hd : op.document with _ | d
  · exact Or.inl ⟨rfl, by simp [WriteOp.line, hd]⟩
  · obtain ⟨hn, hdel⟩ := h d hd
    obtain ⟨hdoc, hslot⟩ := slot_ofDoc hn hdel op.docId
    have hline : op.line = Record.ofDoc op.docId d := by simp [WriteOp.line, hd]
    exact Or.inr ⟨d, rfl, hline ▸ hslot, hline ▸ hdoc⟩

/-- A clean write, direct or logged, keeps completeness, whatever it takes the
old document to be. -/
theorem complete_write {op : WriteOp} (hop : op.Clean) (h : im.Complete t) (old : Option Doc) :
    (match op with
      | .insert _ i d => im.addToIndexes i (withId d i)
      | .update _ i d => im.replaceInIndexes i old (withId d i)
      | .delete _ i => im.dropFromIndexes i old).Complete (t.set op.docId op.line.slot) := by
  cases op with
  | insert c i d =>
      obtain ⟨hd, -⟩ | ⟨_, ⟨⟩, hslot, hdoc⟩ := WriteOp.slot_line hop
      · cases hd
      · rw [hslot]
        exact h.addToIndexes fun field => by rw [hdoc]; rfl
  | update c i d =>
      obtain ⟨hd, -⟩ | ⟨_, ⟨⟩, hslot, hdoc⟩ := WriteOp.slot_line hop
      · cases hd
      · rw [hslot]
        exact h.replaceInIndexes old fun field => by rw [hdoc]; rfl
  | delete c i => exact h.dropFromIndexes old

theorem complete_op {op : EngineOp} (hop : op.Clean) (ht : t.WF) (h : im.Complete t) :
    (op.newIndexes t im).Complete (op.newTable t) := by
  cases op with
  | write op =>
      have hwrite := complete_write hop h ((t.get op.docId).map (withId · op.docId))
      cases op <;> exact hwrite
  | compact c => exact (im.exact_rebuild ht).complete.congr fun i => (t.liveRow_live i).symm

theorem complete_entry {op : WriteOp} (hop : op.Clean) (h : im.Complete t) :
    (op.entry.viaJson.newIndexes t im).Complete (op.entry.viaJson.newTable t) := by
  have hput := WALEntry.toPut_entry op
  have hslot : op.entry.viaJson.line.slot = op.line.slot := congrArg Prod.snd hput
  rw [WALEntry.newTable, hslot, WriteOp.docId_entry, WriteOp.viaJson_entry hop.native]
  have hwrite := complete_write hop h
    ((truthyDoc (t.get op.docId)).map (withId · op.docId))
  cases op <;> exact hwrite

/-- The document a write finds reads like the live line of its id. -/
theorem get_old (ht : t.WF) (i field : String) :
    ((t.get i).map (withId · i)).map (Doc.get · field) =
      (t.liveRow i).map fun r => Doc.get r.doc field := by
  rw [Table.get_eq_map_liveRow]
  rcases hrow : t.liveRow i with _ | r
  · rfl
  · have hid : r.docId = some i := (ht i r (Table.liveRow_eq_some_iff.mp hrow)).1
    have hread : ∀ field, (withId r.stripId i).get? field = r.doc.get? field := by
      intro field
      rw [withId, OrdDict.get?_set]
      split
      · next hf => rw [hf, Record.get?_id_of_docId hid]
      · next hf => rw [Record.stripId, OrdDict.get?_erase, if_neg hf]
    simp [Doc.get, hread]

/-- A direct operation keeps exactness, if it does not insert over a live
document. -/
theorem exact_op {op : EngineOp} (hop : op.Clean) (ht : t.WF) (h : im.Exact t)
    (hnew : ∀ c i d, op = .write (.insert c i d) → t.liveRow i = none) :
    (op.newIndexes t im).Exact (op.newTable t) := by
  cases op with
  | write op =>
      cases op with
      | insert c i d =>
          obtain ⟨hd, -⟩ | ⟨_, ⟨⟩, hslot, hdoc⟩ := WriteOp.slot_line hop
          · cases hd
          · rw [EngineOp.newTable, hslot]
            exact h.addToIndexes (hnew c i d rfl) fun field => by rw [hdoc]; rfl
      | update c i d =>
          obtain ⟨hd, -⟩ | ⟨_, ⟨⟩, hslot, hdoc⟩ := WriteOp.slot_line hop
          · cases hd
          · rw [EngineOp.newTable, hslot]
            exact h.replaceInIndexes (fun field => by rw [hdoc]; rfl) (get_old ht i)
      | delete c i => exact h.dropFromIndexes (get_old ht i)
  | compact c => exact (im.exact_rebuild ht).congr fun i => (t.liveRow_live i).symm

end Operations

/-! ### Runs -/

/-- Collection `c` has indexes `specs`, and they satisfy `Inv` for its table. -/
def Indexed (Inv : IndexManager → Table → Prop) (c : String) (specs : List IndexSpec)
    (w : Database) : Prop :=
  ∃ im, w.mem.get? c = some im ∧ im.specs = specs ∧ Inv im (tables w.disk c)

variable {env : Env} {Inv : IndexManager → Table → Prop} {c : String} {specs : List IndexSpec}
  {w w' : Database}

theorem Indexed.mem_keys (h : Indexed Inv c specs w) : c ∈ w.mem.keys := by
  obtain ⟨im, him, -⟩ := h
  exact OrdDict.mem_keys_of_get? him

/-- A change keeps what it keeps of the changed collection. -/
theorem Indexed.changed (h : Indexed Inv c specs w) {c' : String} {t' : Table}
    {im im' : IndexManager} (him : w.mem.get? c' = some im) (hchanged : Changed w w' c' t' im')
    (hspecs : im'.specs = im.specs)
    (hstep : c' = c → Inv im (tables w.disk c) → Inv im' t') : Indexed Inv c specs w' := by
  obtain ⟨im₀, him₀, hsp, hinv⟩ := h
  rcases eq_or_ne c c' with rfl | hne
  · obtain rfl : im = im₀ := Option.some.inj (him.symm.trans him₀)
    refine ⟨im', hchanged.get?_self, hspecs.trans hsp, ?_⟩
    rw [hchanged.table_self]
    exact hstep rfl hinv
  · refine ⟨im₀, (hchanged.get?_of_ne hne).trans him₀, hsp, ?_⟩
    rw [hchanged.tables, Function.update_of_ne hne]
    exact hinv

/-- The indexes of a new collection are exact. -/
theorem Created.indexed {w₀ : Database} (h : Created w₀ w c specs) :
    Indexed IndexManager.Exact c specs w := by
  refine ⟨_, h.mem, IndexManager.specs_new c specs, ?_⟩
  rw [h.table]
  exact IndexManager.Exact.new (fun _ => rfl) c specs

/-- A property of the indexes and the table of a collection is kept by direct
operations and by logged ones, with clean documents. -/
structure Kept (Inv : IndexManager → Table → Prop) : Prop where
  op : ∀ {op : EngineOp} {im t}, op.Clean → Table.WF t → Inv im t →
    Inv (op.newIndexes t im) (op.newTable t)
  entry : ∀ {op : WriteOp} {im t}, op.Clean → Table.WF t → Inv im t →
    Inv (op.entry.viaJson.newIndexes t im) (op.entry.viaJson.newTable t)

/-- Completeness is kept. -/
theorem kept_complete : Kept IndexManager.Complete where
  op hop ht h := complete_op hop ht h
  entry hop _ h := complete_entry hop h

/-- What is kept is kept by everything clients do. -/
theorem Kept.lockstep (hInv : Kept Inv) (c : String) (specs : List IndexSpec)
    {P : EngineOp → Prop} (hP : ∀ op, P op → op.Clean) :
    Lockstep (fun w (_ : Unit) => Indexed Inv c specs w) (fun s _ => s) (fun s _ => s) P where
  frame := by
    rintro w w' - ⟨im, him, hsp, h⟩ hmem hfiles
    refine ⟨im, hmem ▸ him, hsp, ?_⟩
    rw [tables, hfiles]
    exact h
  op := by
    rintro op w w' - im hop h him hchanged
    apply h.changed him hchanged op.specs_newIndexes
    rintro rfl hc
    exact hInv.op (hP op hop) (tables_wf _ _) hc
  entry := by
    rintro op w w' - im hop h him hchanged
    apply h.changed him hchanged op.entry.viaJson.specs_newIndexes
    rintro rfl hc
    exact hInv.entry (hP _ hop) (tables_wf _ _) hc
  commit _ _ := rfl

/-- **What is kept holds in every reachable state**: after the creation of a
collection and any interleaving of direct operations and transactions. -/
theorem Kept.playAll (hInv : Kept Inv) (hexact : ∀ {im t}, im.Exact t → Inv im t)
    {w₀ : Database} {drop : Bool} {es : List Event} (henv : env.Alone) (hw : Serving w₀)
    (hok : (createCollection c specs drop).value env w₀ = .ok ())
    (hreg : ∀ e ∈ es, ∀ op ∈ e.op?,
      op.collection ∈ ((createCollection c specs drop).exec env w₀).mem.keys)
    (hclean : ∀ e ∈ es, ∀ op ∈ e.op?, op.Clean)
    (hfresh : ∀ e ∈ es, ∀ file ∈ e.file?, w₀.disk.wal.get? file = none)
    (hcommit : Committable es) :
    let run := createCollection c specs drop >>= fun _ => JsonpySql.playAll es
    run.value env w₀ = .ok () ∧ Serving (run.exec env w₀) ∧
      Indexed Inv c specs (run.exec env w₀) := by
  intro run
  have hcreated := createCollection_spec hok
  have hstart : Running (fun w (_ : Unit) => Indexed Inv c specs w)
      (fun op : EngineOp =>
        op.collection ∈ ((createCollection c specs drop).exec env w₀).mem.keys ∧ op.Clean)
      (fun file => w₀.disk.wal.get? file = none)
      ((createCollection c specs drop).exec env w₀).mem.keys (fun _ => [])
      ((createCollection c specs drop).exec env w₀) () := by
    apply Running.start (hcreated.serving hw)
    · intro file hfile
      rw [hcreated.wal]
      exact hfile
    · obtain ⟨im, him, hsp, h⟩ := hcreated.indexed
      exact ⟨im, him, hsp, hexact h⟩
  obtain ⟨hplay, B', hw', -, -, -, hindexed⟩ := hstart.playAll
    (hInv.lockstep c specs fun _ h => h.2) (fun _ h => h.1) henv
    (fun e he op hop => ⟨hreg e he op hop, hclean e he op hop⟩) hfresh hcommit
  have hexec : run.exec env w₀ =
      (JsonpySql.playAll es).exec env ((createCollection c specs drop).exec env w₀) :=
    Prog.exec_bind_ok hok
  rw [hexec]
  exact ⟨(Prog.value_bind_ok hok).trans hplay, hw', hindexed⟩

/-- Complete indexes list every row `scan` yields. -/
theorem IndexManager.Complete.mem_ids {im : IndexManager} {t : Table} (h : im.Complete t)
    {r : Record} {i : String} (ht : t.WF) (hr : r ∈ DocumentStore.rows t)
    (hid : r.docId = some i) {e : IndexSpec × SortedDict} (he : e ∈ im.indexes) :
    i ∈ InvertedIndex.ids e.2 (e.1.key r.doc) := by
  apply h e he
  rw [IndexManager.keyOf, (Table.liveRow_eq_some_iff_rows ht).mpr ⟨hr, hid⟩]
  rfl

/-- **Indexes never miss a live document.**  After the creation of a collection
and any interleaving of direct operations and transactions, with clean
documents, every row `scan` yields is listed in every index under its key. -/
theorem indexes_complete (w₀ : Database) (c : String) (specs : List IndexSpec) (drop : Bool)
    (es : List Event) (henv : env.Alone) (hw : Serving w₀)
    (hok : (createCollection c specs drop).value env w₀ = .ok ())
    (hreg : ∀ e ∈ es, ∀ op ∈ e.op?,
      op.collection ∈ ((createCollection c specs drop).exec env w₀).mem.keys)
    (hclean : ∀ e ∈ es, ∀ op ∈ e.op?, op.Clean)
    (hfresh : ∀ e ∈ es, ∀ file ∈ e.file?, w₀.disk.wal.get? file = none)
    (hcommit : Committable es) :
    let run := createCollection c specs drop >>= fun _ => playAll es
    let w := run.exec env w₀
    run.value env w₀ = .ok () ∧ ∃ im rows, w.mem.get? c = some im ∧ im.specs = specs ∧
      (StorageEngine.scan c).value env w = .ok rows ∧
      ∀ r ∈ rows, ∀ i, r.docId = some i →
        ∀ e ∈ im.indexes, i ∈ InvertedIndex.ids e.2 (e.1.key r.doc) := by
  intro run w
  obtain ⟨hplay, hw', im, him, hsp, hcomplete⟩ := kept_complete.playAll
    (fun hexact => hexact.complete) henv hw hok hreg hclean hfresh hcommit
  refine ⟨hplay, im, _, him, hsp, value_scan henv hw' (OrdDict.mem_keys_of_get? him), ?_⟩
  intro r hr i hid e he
  exact hcomplete.mem_ids (tables_wf _ c) hr hid he

/-- A transaction writes over a live document and changes its key. -/
theorem indexes_complete_users :
    let es : List Event :=
      [.engine (.write (.insert "users" "1" (OrdDict.ofList [("email", .str "a")]))),
        .buffer "a.wal" (.insert "users" "1" (OrdDict.ofList [("email", .str "b")])),
        .buffer "a.wal" (.update "users" "2" (OrdDict.ofList [("email", .int 7)])),
        .engine (.compact "users"), .commit "a.wal",
        .engine (.write (.delete "users" "2"))]
    let w := (createCollection "users" [⟨["email"], true⟩, ⟨["email", "age"], false⟩] false >>=
      fun _ => playAll es).exec onlyClient emptyDb
    ∃ im rows, w.mem.get? "users" = some im ∧
      (StorageEngine.scan "users").value onlyClient w = .ok rows ∧
      ∀ r ∈ rows, ∀ i, r.docId = some i →
        ∀ e ∈ im.indexes, i ∈ InvertedIndex.ids e.2 (e.1.key r.doc) := by
  intro es w
  obtain ⟨-, im, rows, him, -, hrows, hall⟩ :=
    indexes_complete emptyDb "users" [⟨["email"], true⟩, ⟨["email", "age"], false⟩] false es
      onlyClient_alone emptyDb_serving rfl (by decide) (by decide) (fun _ _ _ _ => rfl) (by decide)
  exact ⟨im, rows, him, hrows, hall⟩

/-! ### Exactness -/

/-- Every insert of a run into collection `c` is of an id that is not live at
that moment. -/
def InsertsFresh (env : Env) (c : String) : Database → List EngineOp → Prop
  | _, [] => True
  | w, op :: ops =>
      (∀ i d, op = .write (.insert c i d) → (StorageEngine.get c i).value env w = .ok none) ∧
        InsertsFresh env c (op.perform.exec env w) ops

/-- **Exactness is kept** by a run that inserts over no live document. -/
theorem performAll_exact {ops : List EngineOp} (henv : env.Alone) (hw : Serving w)
    (hreg : ∀ op ∈ ops, op.collection ∈ w.mem.keys) (hclean : ∀ op ∈ ops, op.Clean)
    (hfresh : InsertsFresh env c w ops) (h : Indexed IndexManager.Exact c specs w) :
    (performAll ops).value env w = .ok () ∧ Serving ((performAll ops).exec env w) ∧
      Indexed IndexManager.Exact c specs ((performAll ops).exec env w) := by
  induction ops generalizing w with
  | nil => exact ⟨rfl, hw, h⟩
  | cons op ops ih =>
      have hc : op.collection ∈ w.mem.keys := hreg op List.mem_cons_self
      obtain ⟨im, him⟩ := OrdDict.exists_get?_of_mem hc
      obtain ⟨hok, hchanged⟩ := perform_spec_of_alone op henv hw him
      have hkeys : (op.perform.exec env w).mem.keys = w.mem.keys := hchanged.keys hc
      have hindexed : Indexed IndexManager.Exact c specs (op.perform.exec env w) := by
        apply h.changed him hchanged op.specs_newIndexes
        rintro rfl hexact
        apply exact_op (hclean op List.mem_cons_self) (tables_wf _ _) hexact
        rintro c' i d rfl
        -- the id inserted was not live
        have hget := hfresh.1 i d rfl
        rw [value_get henv hw hc] at hget
        exact Option.map_eq_none_iff.mp (Except.ok.inj hget)
      show (op.perform >>= fun _ => performAll ops).value env w = .ok () ∧
        Serving ((op.perform >>= fun _ => performAll ops).exec env w) ∧
        Indexed _ c specs ((op.perform >>= fun _ => performAll ops).exec env w)
      rw [Prog.value_bind_ok hok, Prog.exec_bind_ok hok]
      exact ih (hchanged.serving hc hw)
        (fun op' hop' => hkeys.symm ▸ hreg op' (List.mem_cons_of_mem _ hop'))
        (fun op' hop' => hclean op' (List.mem_cons_of_mem _ hop')) hfresh.2 hindexed

/-- The live ids of a table and their keys, as rows. -/
theorem IndexManager.keyOf_eq_some_iff {t : Table} (ht : t.WF) {spec : IndexSpec}
    {i key : String} : IndexManager.keyOf spec t i = some key ↔
      ∃ r ∈ DocumentStore.rows t, r.docId = some i ∧ spec.key r.doc = key := by
  constructor
  · intro h
    obtain ⟨r, hr, hkey⟩ := Option.map_eq_some_iff.mp h
    obtain ⟨hmem, hid⟩ := (Table.liveRow_eq_some_iff_rows ht).mp hr
    exact ⟨r, hmem, hid, hkey⟩
  · rintro ⟨r, hr, hid, rfl⟩
    rw [IndexManager.keyOf, (Table.liveRow_eq_some_iff_rows ht).mpr ⟨hr, hid⟩]
    rfl

/-- A field with a single-field index is looked up in such an index. -/
theorem IndexManager.findIndexFor_of_mem {im : IndexManager} {field : String}
    (h : ∃ spec ∈ im.specs, spec.fields = [field]) :
    ∃ e ∈ im.indexes, e.1.fields = [field] ∧ im.findIndexFor field = some e.2 := by
  obtain ⟨spec, hspec, hfields⟩ := h
  obtain ⟨e₀, he₀, rfl⟩ := List.mem_map.mp hspec
  rcases hfind : im.indexes.find? fun e => e.1.fields = [field] with _ | e
  · exact absurd (List.find?_eq_none.mp hfind e₀ he₀) (by simpa using hfields)
  · refine ⟨e, List.mem_of_find?_eq_some hfind, ?_, by rw [IndexManager.findIndexFor, hfind]; rfl⟩
    simpa using List.find?_some hfind

theorem IndexManager.hasIndexFor_of_mem {im : IndexManager} {field : String}
    (h : ∃ spec ∈ im.specs, spec.fields = [field]) : im.hasIndexFor field = true := by
  obtain ⟨e, -, -, hfind⟩ := im.findIndexFor_of_mem h
  rw [hasIndexFor, hfind]
  rfl

/-- Exact indexes answer lookups exactly. -/
theorem IndexManager.Exact.mem_lookup {im : IndexManager} {t : Table} (h : im.Exact t)
    (ht : t.WF) {field : String} (hfield : ∃ spec ∈ im.specs, spec.fields = [field])
    (v : PyVal) :
    (im.lookup field v).Nodup ∧ ∀ i, i ∈ im.lookup field v ↔ ∃ r ∈ DocumentStore.rows t,
      r.docId = some i ∧ (Doc.get r.doc field).toStr = v.toStr := by
  obtain ⟨e, he, hfields, hfind⟩ := IndexManager.findIndexFor_of_mem hfield
  have hlookup : im.lookup field v = InvertedIndex.ids e.2 v.toStr := by
    rw [IndexManager.lookup, hfind]
    rfl
  rw [hlookup]
  refine ⟨(h e he).nodup _, fun i => ?_⟩
  rw [(h e he).mem_ids, IndexManager.keyOf_eq_some_iff ht]
  simp only [IndexSpec.key_single hfields]

/-- An exact index answers range scans exactly, by the order of the keys. -/
theorem IndexManager.mem_rangeScan {im : IndexManager} {t : Table} (ht : t.WF)
    {spec : IndexSpec} {field : String} (hfields : spec.fields = [field]) {idx : SortedDict}
    (hfind : im.findIndexFor field = some idx)
    (h : InvertedIndex.Exact idx (IndexManager.keyOf spec t)) (low high : PyVal) :
    (im.rangeScan field low high).Nodup ∧ ∀ i, i ∈ im.rangeScan field low high ↔
      ∃ r ∈ DocumentStore.rows t, r.docId = some i ∧
        low.toStr ≤ (Doc.get r.doc field).toStr ∧ (Doc.get r.doc field).toStr ≤ high.toStr := by
  have hscan : im.rangeScan field low high =
      idx.select fun key => low.toStr ≤ key ∧ key ≤ high.toStr := by
    rw [IndexManager.rangeScan, hfind]
    rfl
  rw [hscan]
  refine ⟨h.nodup_select _, fun i => ?_⟩
  rw [h.mem_select]
  constructor
  · rintro ⟨key, hkey, hp⟩
    obtain ⟨r, hr, hid, rfl⟩ := (IndexManager.keyOf_eq_some_iff ht).mp hkey
    rw [IndexSpec.key_single hfields] at hp
    exact ⟨r, hr, hid, by simpa using hp⟩
  · rintro ⟨r, hr, hid, hp⟩
    refine ⟨_, (IndexManager.keyOf_eq_some_iff ht).mpr ⟨r, hr, hid, rfl⟩, ?_⟩
    rw [IndexSpec.key_single hfields]
    simpa using hp

theorem IndexManager.Exact.mem_rangeScan {im : IndexManager} {t : Table} (h : im.Exact t)
    (ht : t.WF) {field : String} (hfield : ∃ spec ∈ im.specs, spec.fields = [field])
    (low high : PyVal) :
    (im.rangeScan field low high).Nodup ∧ ∀ i, i ∈ im.rangeScan field low high ↔
      ∃ r ∈ DocumentStore.rows t, r.docId = some i ∧
        low.toStr ≤ (Doc.get r.doc field).toStr ∧ (Doc.get r.doc field).toStr ≤ high.toStr := by
  obtain ⟨e, he, hfields, hfind⟩ := IndexManager.findIndexFor_of_mem hfield
  exact IndexManager.mem_rangeScan ht hfields hfind (h e he) low high

/-- **Indexes are exact** when no live document is inserted over: after the
creation of a collection and any sequence of such operations with clean
documents, every key of every index lists exactly the live ids with this key,
each once, and no list is empty.  So lookups and range scans answer exactly by
the printed values of the field. -/
theorem indexes_exact (w₀ : Database) (c : String) (specs : List IndexSpec) (drop : Bool)
    (ops : List EngineOp) (henv : env.Alone) (hw : Serving w₀)
    (hok : (createCollection c specs drop).value env w₀ = .ok ())
    (hreg : ∀ op ∈ ops,
      op.collection ∈ ((createCollection c specs drop).exec env w₀).mem.keys)
    (hclean : ∀ op ∈ ops, op.Clean)
    (hfresh : InsertsFresh env c ((createCollection c specs drop).exec env w₀) ops) :
    let run := createCollection c specs drop >>= fun _ => performAll ops
    let w := run.exec env w₀
    run.value env w₀ = .ok () ∧ ∃ im rows, w.mem.get? c = some im ∧ im.specs = specs ∧
      (StorageEngine.scan c).value env w = .ok rows ∧
      (∀ e ∈ im.indexes, ∀ key : String, (InvertedIndex.ids e.2 key).Nodup ∧ e.2[key]? ≠ some [] ∧
        ∀ i, i ∈ InvertedIndex.ids e.2 key ↔
          ∃ r ∈ rows, r.docId = some i ∧ e.1.key r.doc = key) ∧
      ∀ field, (∃ spec ∈ specs, spec.fields = [field]) →
        (∀ v, ∃ ids, (StorageEngine.lookup c field v).value env w = .ok ids ∧ ids.Nodup ∧
          ∀ i, i ∈ ids ↔ ∃ r ∈ rows, r.docId = some i ∧
            (Doc.get r.doc field).toStr = v.toStr) ∧
        ∀ low high, ∃ ids, (StorageEngine.rangeScan c field low high).value env w = .ok ids ∧
          ids.Nodup ∧ ∀ i, i ∈ ids ↔ ∃ r ∈ rows, r.docId = some i ∧
            low.toStr ≤ (Doc.get r.doc field).toStr ∧
            (Doc.get r.doc field).toStr ≤ high.toStr := by
  intro run w
  have hcreated := createCollection_spec hok
  obtain ⟨hperform, hw', im, him, hsp, hexact⟩ := performAll_exact henv (hcreated.serving hw) hreg
    hclean hfresh hcreated.indexed
  have hexec : w = (performAll ops).exec env ((createCollection c specs drop).exec env w₀) :=
    Prog.exec_bind_ok hok
  rw [← hexec] at hw' him hexact
  have hwf := tables_wf w.disk c
  refine ⟨(Prog.value_bind_ok hok).trans hperform, im, _, him, hsp,
    value_scan henv hw' (OrdDict.mem_keys_of_get? him), ?_, ?_⟩
  · intro e he key
    refine ⟨(hexact e he).nodup key, (hexact e he).ne_nil key, fun i => ?_⟩
    rw [(hexact e he).mem_ids, IndexManager.keyOf_eq_some_iff hwf]
  · intro field hfield
    rw [← hsp] at hfield
    have hhas : im.hasIndexFor field = true := im.hasIndexFor_of_mem hfield
    refine ⟨fun v => ?_, fun low high => ?_⟩
    · obtain ⟨hnd, hmem⟩ := hexact.mem_lookup hwf hfield v
      refine ⟨_, ?_, hnd, hmem⟩
      rw [value_lookup henv hw' him, lookupIn, if_pos hhas]
    · obtain ⟨hnd, hmem⟩ := hexact.mem_rangeScan hwf hfield low high
      exact ⟨_, value_rangeScan him hhas low high, hnd, hmem⟩

/-- An update that creates, a deletion and a re-insertion. -/
theorem indexes_exact_users :
    let ops : List EngineOp :=
      [.write (.insert "users" "1" (OrdDict.ofList [("email", .str "a")])),
        .write (.update "users" "2" (OrdDict.ofList [("email", .str "a")])),
        .write (.delete "users" "1"), .compact "users",
        .write (.insert "users" "1" (OrdDict.ofList [("email", .str "b")]))]
    let w := (createCollection "users" [⟨["email"], true⟩] false >>=
      fun _ => performAll ops).exec onlyClient emptyDb
    ∃ rows, (StorageEngine.scan "users").value onlyClient w = .ok rows ∧
      ∃ ids, (StorageEngine.lookup "users" "email" (.str "a")).value onlyClient w = .ok ids ∧
        ids.Nodup ∧ ∀ i, i ∈ ids ↔
          ∃ r ∈ rows, r.docId = some i ∧ (Doc.get r.doc "email").toStr = "a" := by
  intro ops w
  have hfresh : InsertsFresh onlyClient "users"
      ((createCollection "users" [⟨["email"], true⟩] false).exec onlyClient emptyDb) ops := by
    refine ⟨?_, ?_, ?_, ?_, ?_, trivial⟩ <;>
    · rintro i d ⟨⟩
      try rfl
  obtain ⟨-, im, rows, -, -, hrows, -, hfields⟩ :=
    indexes_exact emptyDb "users" [⟨["email"], true⟩] false ops onlyClient_alone emptyDb_serving
      rfl (by decide) (by decide) hfresh
  exact ⟨rows, hrows, (hfields "email" ⟨_, List.mem_singleton.mpr rfl, rfl⟩).1 (.str "a")⟩

end JsonpySql
