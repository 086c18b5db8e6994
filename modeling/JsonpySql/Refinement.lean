/-
JsonpySql/Refinement.lean

The engine refines a map from collections and ids to documents.

The abstract state (`DocMap`) holds for every collection and id the document
last written, if it was not deleted since; an insert and an update put a
document, a delete removes it, a compaction does nothing.  The simulation
relation (`Simulates`) says that the live line of every id is the document of
the map with `_id` set to the id.  It holds of the tables whatever the log
looks like: overwritten lines, tombstones, compacted or not.
-/
import JsonpySql.Effects

namespace JsonpySql

open StorageEngine

/-! ### The abstract map -/

/-- For every collection and id, the document last written. -/
abbrev DocMap := String → String → Option Doc

namespace EngineOp

/-- The write an operation is, if it is one. -/
def write? : EngineOp → Option WriteOp
  | .write op => some op
  | .compact _ => none

/-- The operation on the map. -/
def apply (M : DocMap) (op : EngineOp) : DocMap := fun c i =>
  match op with
  | .write op => if op.target = (c, i) then op.document else M c i
  | .compact _ => M c i

end EngineOp

/-- Every document written is JSON-native. -/
def WriteOp.Native (op : WriteOp) : Prop := ∀ d ∈ op.document, d.Native

/-- The document of a write is JSON-native and does not use the tombstone
key. -/
def WriteOp.Clean (op : WriteOp) : Prop :=
  ∀ d ∈ op.document, d.Native ∧ d.get? "_deleted" = none

instance (op : WriteOp) : Decidable op.Clean :=
  inferInstanceAs (Decidable (∀ d ∈ op.document, _))

theorem WriteOp.Clean.native {op : WriteOp} (h : op.Clean) : op.Native := fun d hd => (h d hd).1

/-- What a log holds of JSON-native writes is the writes. -/
theorem WriteOp.viaJson_entry {op : WriteOp} (h : op.Native) : op.entry.viaJson = op.entry := by
  cases op with
  | insert c i d | update c i d =>
      have hd : d.viaJson = d := h d rfl
      simp [WriteOp.entry, WALEntry.viaJson, hd]
  | delete c i => rfl

/-- Every document written is clean. -/
def EngineOp.Clean : EngineOp → Prop
  | .write op => op.Clean
  | .compact _ => True

instance : (op : EngineOp) → Decidable op.Clean
  | .write op => inferInstanceAs (Decidable op.Clean)
  | .compact _ => .isTrue trivial

/-- The last write of a sequence that names a document. -/
def lastWrite (ops : List EngineOp) (c i : String) : Option WriteOp :=
  ((ops.filterMap EngineOp.write?).filter fun op => op.target = (c, i)).getLast?

/-- A sequence of operations leaves the last write to each document. -/
theorem foldl_apply (ops : List EngineOp) (M : DocMap) (c i : String) :
    ops.foldl EngineOp.apply M c i =
      match lastWrite ops c i with
      | some op => op.document
      | none => M c i := by
  induction ops using List.reverseRecOn with
  | nil => rfl
  | append_singleton ops op ih =>
      rw [List.foldl_concat]
      rcases op with op | c'
      · by_cases h : op.target = (c, i)
        · simp [EngineOp.apply, lastWrite, EngineOp.write?, h]
        · simp [EngineOp.apply, lastWrite, EngineOp.write?, h] at ih ⊢
          exact ih
      · have hnone : [EngineOp.compact c'].filterMap EngineOp.write? = [] := rfl
        rw [lastWrite, List.filterMap_append, hnone, List.append_nil]
        exact ih

/-! ### The simulation -/

/-- The documents the directory holds, with their `_id`. -/
def stored (w : Database) : DocMap := fun c i => ((tables w.disk c).liveRow i).map Record.doc

/-- The live line of every id is the document of the map, with `_id` set. -/
def Simulates (w : Database) (M : DocMap) : Prop :=
  ∀ c i, stored w c i = (M c i).map (withId · i)

/-- A directory simulates the documents it holds. -/
theorem simulates_stored (w : Database) : Simulates w (stored w) := by
  intro c i
  rcases hrow : (tables w.disk c).liveRow i with _ | r
  · simp [stored, hrow]
  · have hid : r.docId = some i := (tables_wf _ _ _ _ (Table.liveRow_eq_some_iff.mp hrow)).1
    have hset : withId r.doc i = r.doc := OrdDict.set_of_get? (Record.get?_id_of_docId hid)
    simp [stored, hrow, hset]

/-- The line of a native document is the document with its id. -/
theorem Record.doc_ofDoc {d : Doc} (hn : d.Native) (i : String) :
    (Record.ofDoc i d).doc = withId d i := by
  show Doc.viaJson (d.set "_id" (.str i)) = d.set "_id" (.str i)
  rw [Doc.viaJson_set, hn, PyVal.viaJson_str]

/-- The line of a native document without `_deleted` is live. -/
theorem slot_ofDoc {d : Doc} (hn : d.Native) (hd : d.get? "_deleted" = none) (i : String) :
    (Record.ofDoc i d).doc = withId d i ∧
      (Record.ofDoc i d).slot = some (Record.ofDoc i d) := by
  have hdoc := Record.doc_ofDoc hn i
  refine ⟨hdoc, Record.slot_eq_some_iff.mpr ⟨rfl, ?_⟩⟩
  have hget : (withId d i).get? "_deleted" = none := by
    rw [withId, OrdDict.get?_set_of_ne _ _ (by decide), hd]
  simp [Record.deleted, hdoc, Doc.get, hget, PyVal.truthy, PyScalar.truthy]

theorem liveRow_newTable (op : EngineOp) (t : Table) (i : String) :
    Table.liveRow (op.newTable t) i =
      match op with
      | .write op => if i = op.docId then op.line.slot else t.liveRow i
      | .compact _ => t.liveRow i := by
  cases op with
  | write op => exact Table.liveRow_set t _ i _
  | compact c => exact Table.liveRow_live t i

/-- **One operation keeps the simulation.** -/
theorem Simulates.step {w w' : Database} {M : DocMap} {op : EngineOp} {im' : IndexManager}
    (h : Simulates w M) (hdoc : op.Clean)
    (hw' : Changed w w' op.collection (op.newTable (tables w.disk op.collection)) im') :
    Simulates w' (op.apply M) := by
  intro c i
  have hstored : stored w' c i = if c = op.collection
      then (Table.liveRow (op.newTable (tables w.disk op.collection)) i).map Record.doc
      else stored w c i := by
    rw [stored, hw'.tables]
    by_cases hc : c = op.collection
    · subst hc; simp
    · simp [hc, stored]
  rw [hstored, liveRow_newTable]
  rcases op with op | c'
  · by_cases hc : c = op.collection
    · by_cases hi : i = op.docId
      · -- the document written
        subst hc hi
        rcases hd : op.document with _ | d
        · simp [EngineOp.collection, EngineOp.apply, WriteOp.target, WriteOp.line, hd]
        · obtain ⟨hn, hdel⟩ := hdoc d hd
          obtain ⟨hline, hslot⟩ := slot_ofDoc hn hdel op.docId
          simp [EngineOp.collection, EngineOp.apply, WriteOp.target, WriteOp.line, hd, hslot, hline]
      · -- another id of the collection
        subst hc
        simpa [EngineOp.collection, EngineOp.apply, WriteOp.target, hi, Ne.symm hi, stored] using
          h op.collection i
    · -- another collection
      simpa [EngineOp.collection, EngineOp.apply, WriteOp.target, hc, Ne.symm hc] using h c i
  -- a compaction keeps the live lines
  · by_cases hc : c = c'
    · subst hc
      simpa [EngineOp.collection, EngineOp.apply, stored] using h c i
    · simpa [EngineOp.collection, EngineOp.apply, hc] using h c i

/-! ### Runs -/

variable {env : Env} {w : Database} {ops : List EngineOp}

/-- The document of a collection and id after a sequence of operations: the
last one written to it, or what was stored before. -/
def docAfter (w : Database) (ops : List EngineOp) : DocMap := fun c i =>
  match lastWrite ops c i with
  | some op => op.document
  | none => stored w c i

theorem performAll_simulates (henv : env.Alone) (hw : Serving w)
    (hreg : ∀ op ∈ ops, op.collection ∈ w.mem.keys) (hdoc : ∀ op ∈ ops, op.Clean) :
    (performAll ops).value env w = .ok () ∧ Serving ((performAll ops).exec env w) ∧
      ((performAll ops).exec env w).mem.keys = w.mem.keys ∧
      Simulates ((performAll ops).exec env w) (docAfter w ops) := by
  have hrun := performAll_simulation Simulates EngineOp.apply henv hw hreg (simulates_stored w)
    fun op hop w₁ w₂ M im hM _ hchanged => hM.step (hdoc op hop) hchanged
  have hfold : ops.foldl EngineOp.apply (stored w) = docAfter w ops := by
    funext c i
    exact foldl_apply ops (stored w) c i
  rwa [hfold] at hrun

/-- What `get` returns is the document of the map without its `_id`. -/
theorem Simulates.get {M : DocMap} (h : Simulates w M) (c i : String) :
    (tables w.disk c).get i = (M c i).map fun d => d.erase "_id" := by
  have hrow : ((tables w.disk c).liveRow i).map Record.doc = (M c i).map (withId · i) := h c i
  calc (tables w.disk c).get i
      = (((tables w.disk c).liveRow i).map Record.doc).map fun d => d.erase "_id" := by
        rw [Option.map_map]; rfl
    _ = (M c i).map fun d => d.erase "_id" := by
        rw [hrow, Option.map_map]
        congr 1
        funext d
        exact OrdDict.erase_set d "_id" _

/-- What `scan` yields is one row for each document of the map. -/
theorem Simulates.mem_rows {M : DocMap} (h : Simulates w M) (c : String) (r : Record) :
    r ∈ DocumentStore.rows (tables w.disk c) ↔ ∃ i d, M c i = some d ∧ r.doc = withId d i := by
  rw [Table.mem_rows]
  constructor
  · rintro ⟨i, hi⟩
    have hrow : some r.doc = (M c i).map (withId · i) := by rw [← h c i, stored, hi]; rfl
    obtain ⟨d, hd, hdoc⟩ := Option.map_eq_some_iff.mp hrow.symm
    exact ⟨i, d, hd, hdoc.symm⟩
  · rintro ⟨i, d, hd, hdoc⟩
    have hrow : ((tables w.disk c).liveRow i).map Record.doc = some r.doc := by
      rw [hdoc]
      exact (h c i).trans (by rw [hd]; rfl)
    obtain ⟨r', hr', heq⟩ := Option.map_eq_some_iff.mp hrow
    exact ⟨i, by rw [hr', Record.ext_doc heq]⟩

/-- A collection that no operation names keeps its table. -/
theorem performAll_tables (henv : env.Alone) (hw : Serving w)
    (hreg : ∀ op ∈ ops, op.collection ∈ w.mem.keys) {c : String}
    (hc : ∀ op ∈ ops, op.collection ≠ c) :
    tables ((performAll ops).exec env w).disk c = tables w.disk c := by
  refine (performAll_simulation (fun w₁ _ => tables w₁.disk c = tables w.disk c)
    (fun s _ => s) (s := ()) henv hw hreg rfl ?_).2.2.2
  intro op hop w₁ w₂ _ im h _ hchanged
  rw [hchanged.tables, Function.update_of_ne (Ne.symm (hc op hop)), h]

/-- **The storage engine refines a map.**  After any sequence of inserts,
updates, deletes and compactions on registered collections, `get` returns the
document last written under the id after its last delete, without its `_id`;
`scan` yields exactly one row for each live id, that document with its `_id`
set; and an operation changes neither for another collection or id. -/
theorem engine_refines_map (ops : List EngineOp) (henv : env.Alone) (hw : Serving w)
    (hreg : ∀ op ∈ ops, op.collection ∈ w.mem.keys) (hdoc : ∀ op ∈ ops, op.Clean) :
    let w' := (performAll ops).exec env w
    (performAll ops).value env w = .ok () ∧
    (∀ c ∈ w.mem.keys, ∀ i, (StorageEngine.get c i).value env w' =
      .ok ((docAfter w ops c i).map fun d => d.erase "_id")) ∧
    (∀ c ∈ w.mem.keys, ∃ rows, (StorageEngine.scan c).value env w' = .ok rows ∧
      (rows.map Record.docId).Nodup ∧
      ∀ r, r ∈ rows ↔ ∃ i d, docAfter w ops c i = some d ∧ r.doc = withId d i) ∧
    (∀ c ∈ w.mem.keys, (∀ op ∈ ops, op.collection ≠ c) →
      (StorageEngine.scan c).value env w' = (StorageEngine.scan c).value env w) ∧
    (∀ c ∈ w.mem.keys, ∀ i, (∀ op, .write op ∈ ops → op.target ≠ (c, i)) →
      (StorageEngine.get c i).value env w' = (StorageEngine.get c i).value env w) := by
  intro w'
  obtain ⟨hok, hw', hkeys, hsim⟩ := performAll_simulates henv hw hreg hdoc
  have hget : ∀ c ∈ w.mem.keys, ∀ i, (StorageEngine.get c i).value env w' =
      .ok ((docAfter w ops c i).map fun d => d.erase "_id") := fun c hc i => by
    rw [value_get henv hw' (hkeys.symm ▸ hc), hsim.get]
  refine ⟨hok, hget, fun c hc => ?_, fun c hc hother => ?_, fun c hc i hother => ?_⟩
  · refine ⟨_, ?_, Table.nodup_docId_rows (tables_wf w'.disk c), hsim.mem_rows c⟩
    rw [value_scan henv hw' (hkeys.symm ▸ hc)]
  · rw [value_scan henv hw' (hkeys.symm ▸ hc), value_scan henv hw hc,
      performAll_tables henv hw hreg hother]
  -- no write names the document, so the one stored before counts
  · have hnone : lastWrite ops c i = none := by
      rw [lastWrite, List.getLast?_eq_none_iff, List.filter_eq_nil_iff]
      intro op hop
      obtain ⟨eop, heop, hwrite⟩ := List.mem_filterMap.mp hop
      rcases eop with op' | c'
      · obtain rfl : op' = op := Option.some.inj hwrite
        simpa using hother op' heop
      · simp [EngineOp.write?] at hwrite
    rw [hget c hc i, docAfter, hnone, value_get henv hw hc, (simulates_stored w).get]

/-- The state after an overwrite, a delete, a re-insert and a compaction. -/
theorem engine_refines_map_users :
    let ops : List EngineOp :=
      [.write (.insert "users" "1" (OrdDict.ofList [("email", .str "a")])),
        .write (.update "users" "1" (OrdDict.ofList [("email", .str "b")])),
        .write (.delete "users" "2"), .compact "users",
        .write (.insert "users" "2" (OrdDict.ofList [("_id", .int 7), ("email", .none)])),
        .write (.delete "users" "1")]
    let w' := (performAll ops).exec onlyClient usersDb
    (performAll ops).value onlyClient usersDb = .ok () ∧
    (StorageEngine.get "users" "1").value onlyClient w' = .ok none ∧
    (StorageEngine.get "users" "2").value onlyClient w' =
      .ok (some (OrdDict.ofList [("email", .none)])) := by
  intro ops w'
  obtain ⟨hok, hget, -⟩ :=
    engine_refines_map ops onlyClient_alone usersDb_serving (by decide) (by decide)
  exact ⟨hok, (hget "users" (by decide) "1").trans rfl, (hget "users" (by decide) "2").trans rfl⟩

end JsonpySql
