/-
JsonpySql/Effects.lean

What the operations of the engine do, once and for all.

`tables disk` is what a directory means: for every collection the table its
file holds.  Each of the six ways to write a document — insert, update and
delete, called directly or replayed from a log — appends one line to one file,
changes the indexes of that collection in memory, and saves them; so each acts
on the tables as one write of a last-wins store (`store`).  The lemmas `run_*`
say this of the programs, with their writes in order; `Wrote` says what it
amounts to.
-/
import JsonpySql.Engine

namespace JsonpySql

open StorageEngine

/-- The engine's memory and the directory. -/
abbrev Database := World Registry Disk

theorem jsonlPath_injective : Function.Injective jsonlPath := by
  intro c c' h
  exact String.append_left_inj ".jsonl" |>.mp h

/-! ### Tables -/

/-- The table of every collection. -/
def tables (disk : Disk) (c : String) : Table :=
  DocumentStore.table ((disk.jsonl (jsonlPath c)).getD [])

/-- The tables as a last-wins store, written by collection and id. -/
def store : LastWins (String → Table) (String × String) (Option Record) :=
  (LastWins.dict String (Option Record)).pi

theorem store_put (T : String → Table) (c i : String) (v : Option Record) :
    store.put T (c, i) v = Function.update T c ((T c).set i v) := rfl

theorem tables_of_lines {disk : Disk} {c : String} {lines : List Record}
    (h : disk.jsonl (jsonlPath c) = some lines) :
    tables disk c = DocumentStore.table lines := by
  simp [tables, h]

theorem tables_wf (disk : Disk) (c : String) : (tables disk c).WF := DocumentStore.table_wf _

theorem tables_congr {d d' : Disk} (h : d.SameData d') : tables d' = tables d := by
  funext c
  rw [tables, tables, h.jsonl]

/-- A file is the table of one collection. -/
theorem tables_of_update {d d' : Disk} {c : String} {lines : List Record}
    (h : d'.jsonl = Function.update d.jsonl (jsonlPath c) (some lines)) :
    tables d' = Function.update (tables d) c (DocumentStore.table lines) := by
  funext c'
  rcases eq_or_ne c' c with rfl | hne
  · simp [tables, h]
  · have hp : jsonlPath c' ≠ jsonlPath c := fun h => hne (jsonlPath_injective h)
    simp [tables, h, hne, hp]

/-- Appending a line writes one document. -/
theorem tables_appendJsonl (disk : Disk) (c : String) {line : Record} {i : String}
    (h : line.docId = some i) :
    tables (disk.write (.appendJsonl (jsonlPath c) line)) =
      store.put (tables disk) (c, i) line.slot := by
  rw [tables_of_update (d := disk) rfl, DocumentStore.table_concat,
    DocumentStore.scanStep_of_docId h]
  rfl

/-- Replacing a file replaces one table. -/
theorem tables_replaceJsonl (disk : Disk) (c : String) (lines : List Record) :
    tables (disk.write (.replaceJsonl (jsonlPath c) lines)) =
      Function.update (tables disk) c (DocumentStore.table lines) :=
  tables_of_update rfl

/-- Every registered collection has its file. -/
def Serving (w : Database) : Prop :=
  ∀ c ∈ w.mem.keys, (w.disk.jsonl (jsonlPath c)).isSome

/-! ### Reads -/

variable {env : Env} {w : Database} {c : String} {im : IndexManager}

theorem run_require (h : c ∈ w.mem.keys) :
    (require c).run env w = ⟨.ok (), w.mem, []⟩ := by
  simp [require, Prog.run_bind, Prog.exec, Outcome.after, h]

theorem run_require_of_notMem (h : c ∉ w.mem.keys) :
    (require c).run env w =
      ⟨.error (.storageError ("Unknown collection: " ++ strRepr c)), w.mem, []⟩ := by
  simp [require, Prog.run_bind, Prog.exec, Outcome.after, h]

/-- `get` reads the table. -/
theorem run_engine_get (hw : Serving w) (hc : c ∈ w.mem.keys)
    (hfree : LockManager.blocked env (jsonlPath c) .shared = false) (i : String) :
    (StorageEngine.get c i).run env w = ⟨.ok ((tables w.disk c).get i), w.mem, []⟩ := by
  obtain ⟨lines, hl⟩ := Option.isSome_iff_exists.mp (hw c hc)
  rw [StorageEngine.get, Prog.run_bind_read (run_require hc)]
  refine (LockManager.run_locked (hw c hc) hfree _).trans ?_
  rw [DocumentStore.run_get hl, DocumentStore.latest_eq, tables_of_lines hl]

/-- `scan` reads the table. -/
theorem run_engine_scan (hw : Serving w) (hc : c ∈ w.mem.keys)
    (hfree : LockManager.blocked env (jsonlPath c) .shared = false) :
    (StorageEngine.scan c).run env w = ⟨.ok (DocumentStore.rows (tables w.disk c)), w.mem, []⟩ := by
  obtain ⟨lines, hl⟩ := Option.isSome_iff_exists.mp (hw c hc)
  rw [StorageEngine.scan, Prog.run_bind_read (run_require hc)]
  refine (LockManager.run_locked (hw c hc) hfree _).trans ?_
  rw [DocumentStore.run_scan hl, tables_of_lines hl]

/-- Without other clients, `get` answers what the table says. -/
theorem value_get (henv : env.Alone) (hw : Serving w) (hc : c ∈ w.mem.keys) (i : String) :
    (StorageEngine.get c i).value env w = .ok ((tables w.disk c).get i) :=
  congrArg Outcome.result
    (run_engine_get hw hc (LockManager.blocked_of_alone henv _ .shared) i)

/-- Without other clients, `scan` answers what the table says. -/
theorem value_scan (henv : env.Alone) (hw : Serving w) (hc : c ∈ w.mem.keys) :
    (StorageEngine.scan c).value env w = .ok (DocumentStore.rows (tables w.disk c)) :=
  congrArg Outcome.result (run_engine_scan hw hc (LockManager.blocked_of_alone henv _ .shared))

/-- What is read of a registered collection depends on its file alone. -/
theorem value_get_congr {w' : Database} (hc : c ∈ w.mem.keys) (hc' : c ∈ w'.mem.keys)
    (hfile : w'.disk.jsonl (jsonlPath c) = w.disk.jsonl (jsonlPath c)) (i : String) :
    (StorageEngine.get c i).value env w' = (StorageEngine.get c i).value env w := by
  rw [StorageEngine.get, Prog.value, Prog.value, Prog.run_bind_read (run_require hc),
    Prog.run_bind_read (run_require hc')]
  refine LockManager.value_locked_congr hfile fun lines hl hl' => ?_
  rw [Prog.value, Prog.value, DocumentStore.run_get hl, DocumentStore.run_get hl']

theorem value_scan_congr {w' : Database} (hc : c ∈ w.mem.keys) (hc' : c ∈ w'.mem.keys)
    (hfile : w'.disk.jsonl (jsonlPath c) = w.disk.jsonl (jsonlPath c)) :
    (StorageEngine.scan c).value env w' = (StorageEngine.scan c).value env w := by
  rw [StorageEngine.scan, Prog.value, Prog.value, Prog.run_bind_read (run_require hc),
    Prog.run_bind_read (run_require hc')]
  refine LockManager.value_locked_congr hfile fun lines hl hl' => ?_
  rw [Prog.value, Prog.value, DocumentStore.run_scan hl, DocumentStore.run_scan hl']

/-- On a name that is not registered both raise. -/
theorem value_get_of_notMem (hc : c ∉ w.mem.keys) (i : String) :
    (StorageEngine.get c i).value env w =
      .error (.storageError ("Unknown collection: " ++ strRepr c)) := by
  rw [Prog.value, StorageEngine.get, Prog.run_bind_error (run_require_of_notMem hc)]

theorem value_scan_of_notMem (hc : c ∉ w.mem.keys) : (StorageEngine.scan c).value env w =
    .error (.storageError ("Unknown collection: " ++ strRepr c)) := by
  rw [Prog.value, StorageEngine.scan, Prog.run_bind_error (run_require_of_notMem hc)]

theorem run_indexManager (him : w.mem.get? c = some im) :
    (indexManager c).run env w = ⟨.ok im, w.mem, []⟩ := by
  simp [indexManager, Prog.run_bind, Prog.exec, Outcome.after, him]

/-- What a lookup yields: what the index lists, or the rows that match where
there is no index. -/
def lookupIn (im : IndexManager) (t : Table) (field : String) (v : PyVal) : List String :=
  if im.hasIndexFor field then im.lookup field v
  else ((DocumentStore.rows t).filter fun r => (Doc.get r.doc field).eq v).filterMap Record.docId

/-- A lookup reads the index, or the table where there is none. -/
theorem run_lookup (hw : Serving w) (him : w.mem.get? c = some im) {field : String}
    (hfree : im.hasIndexFor field = true ∨ LockManager.blocked env (jsonlPath c) .shared = false)
    (v : PyVal) : (StorageEngine.lookup c field v).run env w =
      ⟨.ok (lookupIn im (tables w.disk c) field v), w.mem, []⟩ := by
  have hc : c ∈ w.mem.keys := OrdDict.mem_keys_of_get? him
  obtain ⟨lines, hl⟩ := Option.isSome_iff_exists.mp (hw c hc)
  rw [StorageEngine.lookup, Prog.run_bind_read (run_require hc),
    Prog.run_bind_read (run_indexManager him), lookupIn]
  split
  · rfl
  · next hhas =>
      refine (LockManager.run_locked (hw c hc) (hfree.resolve_left hhas) _).trans ?_
      rw [Prog.run_bind_read (DocumentStore.run_scan hl), tables_of_lines hl]
      rfl

theorem value_lookup (henv : env.Alone) (hw : Serving w) (him : w.mem.get? c = some im)
    (field : String) (v : PyVal) :
    (StorageEngine.lookup c field v).value env w =
      .ok (lookupIn im (tables w.disk c) field v) :=
  congrArg Outcome.result
    (run_lookup hw him (Or.inr (LockManager.blocked_of_alone henv (jsonlPath c) .shared)) v)

/-- An indexed range scan reads the index. -/
theorem run_rangeScan (him : w.mem.get? c = some im) {field : String}
    (h : im.hasIndexFor field = true) (low high : PyVal) :
    (StorageEngine.rangeScan c field low high).run env w =
      ⟨.ok (im.rangeScan field low high), w.mem, []⟩ := by
  have hc : c ∈ w.mem.keys := OrdDict.mem_keys_of_get? him
  rw [StorageEngine.rangeScan, Prog.run_bind_read (run_require hc),
    Prog.run_bind_read (run_indexManager him), if_pos h]
  rfl

theorem value_rangeScan (him : w.mem.get? c = some im) {field : String}
    (h : im.hasIndexFor field = true) (low high : PyVal) :
    (StorageEngine.rangeScan c field low high).value env w = .ok (im.rangeScan field low high) :=
  congrArg Outcome.result (run_rangeScan him h low high)

theorem value_lookup_of_notMem (hc : c ∉ w.mem.keys) (field : String) (v : PyVal) :
    (StorageEngine.lookup c field v).value env w =
      .error (.storageError ("Unknown collection: " ++ strRepr c)) := by
  rw [Prog.value, StorageEngine.lookup, Prog.run_bind_error (run_require_of_notMem hc)]

/-! What another client's lock may prevent: a read that returns has got its
lock, so it answers what the tables say. -/

theorem readOnly_require (c : String) : Prog.ReadOnly (require c) := by
  refine Prog.readOnly_getMem.bind fun registry => ?_
  split
  · exact Prog.readOnly_pure _
  · exact Prog.readOnly_raise _

theorem readOnly_engine_get (c i : String) : Prog.ReadOnly (StorageEngine.get c i) :=
  (readOnly_require c).bind fun _ => LockManager.readOnly_locked (DocumentStore.readOnly_get _ i)

theorem readOnly_lookup (c field : String) (v : PyVal) :
    Prog.ReadOnly (StorageEngine.lookup c field v) := by
  have hmanager : Prog.ReadOnly (indexManager c) := by
    refine Prog.readOnly_getMem.bind fun registry => ?_
    rcases registry.get? c with _ | im
    · exact Prog.readOnly_raise _
    · exact Prog.readOnly_pure _
  refine (readOnly_require c).bind fun _ => hmanager.bind fun im => ?_
  split
  · exact Prog.readOnly_pure _
  · exact LockManager.readOnly_locked
      ((DocumentStore.readOnly_scan _).bind fun _ => Prog.readOnly_pure _)

theorem free_of_get (hw : Serving w) (hc : c ∈ w.mem.keys) {i : String} {d : Option Doc}
    (h : (StorageEngine.get c i).value env w = .ok d) :
    LockManager.blocked env (jsonlPath c) .shared = false := by
  rw [Prog.value, StorageEngine.get, Prog.run_bind_read (run_require hc)] at h
  exact LockManager.free_of_ok (hw c hc) h

theorem get_of_ok (hw : Serving w) (hc : c ∈ w.mem.keys) {i : String} {d : Option Doc}
    (h : (StorageEngine.get c i).value env w = .ok d) : d = (tables w.disk c).get i := by
  have hfree := free_of_get hw hc h
  rw [Prog.value, run_engine_get hw hc hfree] at h
  exact (Except.ok.inj h).symm

theorem get_error (hw : Serving w) (hc : c ∈ w.mem.keys) {i : String} {e : PyErr}
    (h : (StorageEngine.get c i).value env w = .error e) :
    LockManager.blocked env (jsonlPath c) .shared = true ∧
      e = LockManager.timeoutError env .shared := by
  rcases hheld : LockManager.blocked env (jsonlPath c) .shared with _ | _
  -- with a free lock it returns
  · rw [Prog.value, run_engine_get hw hc hheld] at h
    cases h
  · rw [Prog.value, StorageEngine.get, Prog.run_bind_read (run_require hc)] at h
    have hrun := LockManager.run_locked_of_blocked (hw c hc) hheld
      (DocumentStore.get (jsonlPath c) i : EngineM _)
    exact ⟨rfl, Except.error.inj (h.symm.trans (congrArg Outcome.result hrun))⟩

theorem lookup_of_ok (hw : Serving w) (him : w.mem.get? c = some im) {field : String} {v : PyVal}
    {ids : List String} (h : (StorageEngine.lookup c field v).value env w = .ok ids) :
    ids = lookupIn im (tables w.disk c) field v := by
  have hc : c ∈ w.mem.keys := OrdDict.mem_keys_of_get? him
  have hfree : im.hasIndexFor field = true ∨
      LockManager.blocked env (jsonlPath c) .shared = false := by
    rcases hhas : im.hasIndexFor field with _ | _
    · have hlock := h
      rw [Prog.value, StorageEngine.lookup, Prog.run_bind_read (run_require hc),
        Prog.run_bind_read (run_indexManager him), hhas] at hlock
      exact Or.inr (LockManager.free_of_ok (hw c hc) hlock)
    · exact Or.inl rfl
  rw [Prog.value, run_lookup hw him hfree] at h
  exact (Except.ok.inj h).symm

/-- Two databases answer every `lookup` alike. -/
def SameLookups (env : Env) (w w' : Database) : Prop :=
  ∀ c field v, (StorageEngine.lookup c field v).value env w =
    (StorageEngine.lookup c field v).value env w'

/-- Lookups depend on the indexes in memory and the tables only. -/
theorem sameLookups_of_eq {w' : Database} (henv : env.Alone) (hw : Serving w) (hw' : Serving w')
    (hmem : w'.mem = w.mem) (htables : tables w'.disk = tables w.disk) :
    SameLookups env w w' := by
  intro c field v
  rcases him : w.mem.get? c with _ | im
  · have hc : c ∉ w.mem.keys := OrdDict.get?_eq_none_iff.mp him
    rw [value_lookup_of_notMem hc, value_lookup_of_notMem (hmem ▸ hc)]
  · rw [value_lookup henv hw him, value_lookup henv hw' (hmem ▸ him), htables]

/-- Two databases answer every `get` and `scan` alike. -/
def SameAnswers (env : Env) (w w' : Database) : Prop :=
  ∀ c, (∀ i, (StorageEngine.get c i).value env w = (StorageEngine.get c i).value env w') ∧
    (StorageEngine.scan c).value env w = (StorageEngine.scan c).value env w'

/-- What databases with the same collections answer, in terms of their
tables. -/
theorem sameAnswers_iff {w' : Database} (henv : env.Alone) (hw : Serving w) (hw' : Serving w')
    (hkeys : w'.mem.keys = w.mem.keys) : SameAnswers env w w' ↔
      ∀ c ∈ w.mem.keys, (∀ i, (tables w.disk c).get i = (tables w'.disk c).get i) ∧
        DocumentStore.rows (tables w.disk c) = DocumentStore.rows (tables w'.disk c) := by
  constructor
  · intro h c hc
    obtain ⟨hget, hscan⟩ := h c
    rw [value_scan henv hw hc, value_scan henv hw' (hkeys ▸ hc)] at hscan
    refine ⟨fun i => ?_, Except.ok.inj hscan⟩
    have hi := hget i
    rw [value_get henv hw hc, value_get henv hw' (hkeys ▸ hc)] at hi
    exact Except.ok.inj hi
  · intro h c
    rcases Decidable.em (c ∈ w.mem.keys) with hc | hc
    · have hc' : c ∈ w'.mem.keys := hkeys ▸ hc
      obtain ⟨hget, hscan⟩ := h c hc
      refine ⟨fun i => ?_, ?_⟩
      · rw [value_get henv hw hc, value_get henv hw' hc', hget]
      · rw [value_scan henv hw hc, value_scan henv hw' hc', hscan]
    · have hc' : c ∉ w'.mem.keys := hkeys ▸ hc
      refine ⟨fun i => ?_, ?_⟩
      · rw [value_get_of_notMem hc, value_get_of_notMem hc']
      · rw [value_scan_of_notMem hc, value_scan_of_notMem hc']

theorem sameAnswers_of_eq {w' : Database} (henv : env.Alone) (hw : Serving w) (hw' : Serving w')
    (hkeys : w'.mem.keys = w.mem.keys) (htables : tables w'.disk = tables w.disk) :
    SameAnswers env w w' := by
  rw [sameAnswers_iff henv hw hw' hkeys, htables]
  exact fun c _ => ⟨fun _ => rfl, rfl⟩

/-! ### One change -/

/-- What a change to collection `c` does: its table becomes `t'` and its
indexes `im'`, and nothing else changes but saved index files. -/
structure Changed (w w' : Database) (c : String) (t' : Table) (im' : IndexManager) : Prop where
  mem : w'.mem = w.mem.set c im'
  tables : tables w'.disk = Function.update (tables w.disk) c t'
  wal : w'.disk.wal = w.disk.wal
  manifest : w'.disk.manifest = w.disk.manifest
  files : ∀ file, (w.disk.jsonl file).isSome → (w'.disk.jsonl file).isSome
  text : w.disk.KeepsText w'.disk

/-- The writes that change a file of documents to what makes up table `t'`. -/
inductive DataWrite (disk : Disk) (c : String) : DiskWrite → Table → Prop
  | append {line : Record} {i : String} (h : line.docId = some i) :
      DataWrite disk c (.appendJsonl (jsonlPath c) line) ((tables disk c).set i line.slot)
  | replace (lines : List Record) :
      DataWrite disk c (.replaceJsonl (jsonlPath c) lines) (DocumentStore.table lines)

theorem DataWrite.tables_write {disk : Disk} {dw : DiskWrite} {t' : Table}
    (h : DataWrite disk c dw t') :
    tables (disk.write dw) = Function.update (tables disk) c t' := by
  cases h with
  | append h => exact tables_appendJsonl disk c h
  | replace lines => exact tables_replaceJsonl disk c lines

theorem DataWrite.frame {disk : Disk} {dw : DiskWrite} {t' : Table} (h : DataWrite disk c dw t') :
    (disk.write dw).wal = disk.wal ∧ (disk.write dw).manifest = disk.manifest ∧
      ∀ file, (disk.jsonl file).isSome → ((disk.write dw).jsonl file).isSome := by
  cases h <;>
  · refine ⟨rfl, rfl, fun file hfile => ?_⟩
    by_cases hf : file = jsonlPath c
    · subst hf; simp [Disk.write]
    · simpa [Disk.write, hf] using hfile

theorem DataWrite.keepsText {disk : Disk} {dw : DiskWrite} {t' : Table}
    (h : DataWrite disk c dw t') : disk.KeepsText (disk.write dw) := by
  cases h with
  | append _ | replace _ => exact disk.keepsText_write rfl

/-- A change to a file of documents, followed by a save of the indexes. -/
theorem changed_of_run {p : EngineM Unit} {dw : DiskWrite} {t' : Table} {im' : IndexManager}
    (hdw : DataWrite w.disk c dw t')
    (h : p.run env w = ⟨.ok (), w.mem.set c im', dw :: im'.saveWrites⟩) :
    Changed w (p.exec env w) c t' im' := by
  -- the document file is written first; saving the indexes leaves it alone
  have hsame := im'.sameData_saveWrites (w.disk.write dw)
  have hexec := Prog.exec_of_run h
  have hdisk : (p.exec env w).disk = applyAll (w.disk.write dw) im'.saveWrites :=
    congrArg World.disk hexec
  obtain ⟨hwal, hman, hfiles⟩ := hdw.frame
  refine ⟨congrArg World.mem hexec, ?_, ?_, ?_, ?_, ?_⟩
  · rw [hdisk, tables_congr hsame, hdw.tables_write]
  · rw [hdisk, hsame.wal, hwal]
  · rw [hdisk, hsame.manifest, hman]
  · intro file hfile
    rw [hdisk, hsame.jsonl]
    exact hfiles file hfile
  · rw [hdisk]
    exact hdw.keepsText.trans hsame.text

section Changed

variable {w' : Database} {t' : Table} {im' : IndexManager}

theorem Changed.get?_self (h : Changed w w' c t' im') : w'.mem.get? c = some im' := by
  rw [h.mem, OrdDict.get?_set_self]

theorem Changed.get?_of_ne (h : Changed w w' c t' im') {c' : String} (hne : c' ≠ c) :
    w'.mem.get? c' = w.mem.get? c' := by
  rw [h.mem, OrdDict.get?_set_of_ne _ _ hne]

theorem Changed.table_self (h : Changed w w' c t' im') : JsonpySql.tables w'.disk c = t' := by
  rw [h.tables, Function.update_self]

theorem Changed.keys (h : Changed w w' c t' im') (hc : c ∈ w.mem.keys) :
    w'.mem.keys = w.mem.keys := by
  rw [h.mem, OrdDict.keys_set_of_mem _ hc]

theorem Changed.serving (h : Changed w w' c t' im') (hc : c ∈ w.mem.keys) (hw : Serving w) :
    Serving w' := by
  intro c' hc'
  rw [h.keys hc] at hc'
  exact h.files _ (hw c' hc')

theorem Changed.refl (him : w.mem.get? c = some im) :
    Changed w w c (JsonpySql.tables w.disk c) im :=
  ⟨(OrdDict.set_of_get? him).symm, (Function.update_eq_self _ _).symm, rfl, rfl, fun _ h => h,
    .refl w.disk⟩

/-- The second change of a collection covers the first. -/
theorem Changed.trans {w'' : Database} {t'' : Table} {im'' : IndexManager}
    (h : Changed w w' c t' im') (h' : Changed w' w'' c t'' im'') : Changed w w'' c t'' im'' where
  mem := by rw [h'.mem, h.mem, OrdDict.set_set]
  tables := by rw [h'.tables, h.tables, Function.update_idem]
  wal := h'.wal.trans h.wal
  manifest := h'.manifest.trans h.manifest
  files file hfile := h'.files file (h.files file hfile)
  text := h.text.trans h'.text

end Changed

/-- A save of other indexes changes the indexes only. -/
theorem changed_of_save {p : EngineM Unit} {im' : IndexManager}
    (h : p.run env w = ⟨.ok (), w.mem.set c im', im'.saveWrites⟩) :
    Changed w (p.exec env w) c (JsonpySql.tables w.disk c) im' := by
  have hsame := im'.sameData_saveWrites w.disk
  rw [Prog.exec, h]
  refine ⟨rfl, ?_, hsame.wal, hsame.manifest, fun file hfile => ?_, hsame.text⟩
  · rw [Function.update_eq_self]
    exact tables_congr hsame
  · rw [hsame.jsonl]
    exact hfile

/-- A file write, then an index program that saves. -/
theorem run_write_indexes (him : w.mem.get? c = some im) {p : StoreM IndexManager Unit}
    {im' : IndexManager} {dw : DiskWrite}
    (hp : ∀ disk, p.run env ⟨im, disk⟩ = ⟨.ok (), im', im'.saveWrites⟩) :
    (Prog.writeAll [dw] >>= fun _ => indexes c p).run env w =
      ⟨.ok (), w.mem.set c im', dw :: im'.saveWrites⟩ := by
  have him' : (⟨w.mem, applyAll w.disk [dw]⟩ : Database).mem.get? c = some im := him
  rw [Prog.run_bind_ok (Prog.run_writeAll [dw] env w), indexes, Prog.run_focus him' (hp _)]
  rfl

/-! ### What a client asks for, and what a log says -/

/-- The line a document is stored as does not change when the document has been
through JSON before. -/
theorem Record.ofDoc_viaJson (i : String) (d : Doc) :
    Record.ofDoc i d.viaJson = Record.ofDoc i d := by
  refine Record.ext_doc ?_
  show Doc.viaJson (d.viaJson.set "_id" (.str i)) = Doc.viaJson (d.set "_id" (.str i))
  rw [Doc.viaJson_set, Doc.viaJson_set, Doc.viaJson_viaJson]

namespace WriteOp

/-- The line a write appends. -/
def line (op : WriteOp) : Record :=
  match op.document with
  | some d => Record.ofDoc op.docId d
  | none => Record.tombstone op.docId

/-- The document a write names. -/
def target (op : WriteOp) : String × String := (op.collection, op.docId)

/-- The write as the store sees it. -/
def toPut (op : WriteOp) : (String × String) × Option Record := (op.target, op.line.slot)

/-- The indexes after a direct write. -/
def newIndexes (op : WriteOp) (t : Table) (im : IndexManager) : IndexManager :=
  match op with
  | .insert _ i d => im.addToIndexes i (withId d i)
  | .update _ i d => im.replaceInIndexes i ((t.get i).map (withId · i)) (withId d i)
  | .delete _ i => im.dropFromIndexes i ((t.get i).map (withId · i))

@[simp] theorem docId_line (op : WriteOp) : op.line.docId = some op.docId := by
  cases op <;> simp [line, document, docId]

@[simp] theorem collection_entry (op : WriteOp) :
    op.entry.viaJson.collection = op.collection := by
  cases op <;> rfl

@[simp] theorem docId_entry (op : WriteOp) : op.entry.viaJson.docId = op.docId := by
  cases op <;> rfl

end WriteOp

namespace WALEntry

/-- The line an entry appends. -/
def line (e : WALEntry) : Record :=
  match e.op with
  | .delete => Record.tombstone e.docId
  | _ => Record.ofDoc e.docId (e.document.getD OrdDict.empty)

/-- The entry as the store sees it. -/
def toPut (e : WALEntry) : (String × String) × Option Record := (e.target, e.line.slot)

/-- The indexes after an entry was applied. -/
def newIndexes (e : WALEntry) (t : Table) (im : IndexManager) : IndexManager :=
  let document := withId (e.document.getD OrdDict.empty) e.docId
  let old := (truthyDoc (t.get e.docId)).map (withId · e.docId)
  match e.op with
  | .insert => im.addToIndexes e.docId document
  | .update => im.replaceInIndexes e.docId old document
  | .delete => im.dropFromIndexes e.docId old

@[simp] theorem docId_line (e : WALEntry) : e.line.docId = some e.docId := by
  rcases e with ⟨_ | _ | _, c, i, d⟩ <;> simp [line]

/-- A logged operation writes what the direct call writes. -/
theorem toPut_entry (op : WriteOp) : op.entry.viaJson.toPut = op.toPut := by
  cases op <;>
    simp [WriteOp.entry, viaJson, toPut, WriteOp.toPut, line, WriteOp.line, WriteOp.document,
      target, WriteOp.target, WriteOp.collection, WriteOp.docId, Record.ofDoc_viaJson]

end WALEntry

/-! ### The six writes -/

/-- A block under the free lock of a file that is there. -/
theorem run_exclusive {α : Type} (hw : Serving w) (hc : c ∈ w.mem.keys)
    (hfree : LockManager.blocked env (jsonlPath c) .exclusive = false) (block : EngineM α) :
    (require c >>= fun _ => LockManager.exclusive (jsonlPath c) block).run env w =
      block.run env w := by
  rw [Prog.run_bind_read (run_require hc)]
  exact LockManager.run_locked (hw c hc) hfree block

/-- Reading the old document before a write. -/
theorem run_get_bind {α : Type} {lines : List Record}
    (hl : w.disk.jsonl (jsonlPath c) = some lines) (i : String)
    (f : Option Doc → EngineM α) :
    (DocumentStore.get (jsonlPath c) i >>= f).run env w =
      (f ((tables w.disk c).get i)).run env w := by
  rw [Prog.run_bind_read (DocumentStore.run_get hl i), DocumentStore.latest_eq,
    tables_of_lines hl]

/-- **A direct write** on a registered collection whose lock is free. -/
theorem run_direct (op : WriteOp) (hw : Serving w) (him : w.mem.get? op.collection = some im)
    (hfree : LockManager.blocked env (jsonlPath op.collection) .exclusive = false) :
    op.direct.run env w =
      ⟨.ok (), w.mem.set op.collection (op.newIndexes (tables w.disk op.collection) im),
        .appendJsonl (jsonlPath op.collection) op.line ::
          (op.newIndexes (tables w.disk op.collection) im).saveWrites⟩ := by
  have hc : op.collection ∈ w.mem.keys := OrdDict.mem_keys_of_get? him
  obtain ⟨lines, hl⟩ := Option.isSome_iff_exists.mp (hw _ hc)
  cases op with
  | insert c i d =>
      refine (run_exclusive hw hc hfree _).trans ?_
      exact run_write_indexes him fun disk => IndexManager.run_onInsert i _
  | update c i d =>
      refine (run_exclusive hw hc hfree _).trans ?_
      refine (run_get_bind hl i _).trans ?_
      exact run_write_indexes him fun disk => IndexManager.run_onUpdate i _ _
  | delete c i =>
      refine (run_exclusive hw hc hfree _).trans ?_
      refine (run_get_bind hl i _).trans ?_
      exact run_write_indexes him fun disk => IndexManager.run_onDelete i _

/-- **A logged write** on a registered collection. -/
theorem run_applyEntry (env : Env) (e : WALEntry) (hw : Serving w)
    (him : w.mem.get? e.collection = some im) :
    (applyEntry e).run env w =
      ⟨.ok (), w.mem.set e.collection (e.newIndexes (tables w.disk e.collection) im),
        .appendJsonl (jsonlPath e.collection) e.line ::
          (e.newIndexes (tables w.disk e.collection) im).saveWrites⟩ := by
  obtain ⟨op, c, i, d⟩ := e
  have hc : c ∈ w.mem.keys := OrdDict.mem_keys_of_get? him
  obtain ⟨lines, hl⟩ := Option.isSome_iff_exists.mp (hw _ hc)
  rw [applyEntry, Prog.run_bind_read (run_require hc)]
  cases op with
  | insert =>
      exact run_write_indexes him fun disk => IndexManager.run_onInsert i _
  | update =>
      refine (run_get_bind hl i _).trans ?_
      exact run_write_indexes him fun disk => IndexManager.run_onUpdate i _ _
  | delete =>
      refine (run_get_bind hl i _).trans ?_
      exact run_write_indexes him fun disk => IndexManager.run_onDelete i _

/-- A logged write on an unregistered collection raises, and nothing has
happened. -/
theorem run_applyEntry_of_notMem (env : Env) (e : WALEntry) (hc : e.collection ∉ w.mem.keys) :
    (applyEntry e).run env w =
      ⟨.error (.storageError ("Unknown collection: " ++ strRepr e.collection)), w.mem, []⟩ := by
  obtain ⟨op, c, i, d⟩ := e
  rw [applyEntry, Prog.run_bind_error (run_require_of_notMem hc)]

theorem changed_applyEntry (env : Env) (e : WALEntry) (hw : Serving w)
    (him : w.mem.get? e.collection = some im) :
    Changed w ((applyEntry e).exec env w) e.collection
      ((tables w.disk e.collection).set e.docId e.line.slot)
      (e.newIndexes (tables w.disk e.collection) im) :=
  changed_of_run (.append e.docId_line) (run_applyEntry env e hw him)

/-! ### Operations of the engine -/

/-- A write or a compaction. -/
inductive EngineOp
  | write (op : WriteOp)
  | compact (collection : String)
deriving DecidableEq

namespace EngineOp

def collection : EngineOp → String
  | .write op => op.collection
  | .compact c => c

/-- The call. -/
def perform : EngineOp → EngineM Unit
  | .write op => op.direct
  | .compact c => StorageEngine.compact c

/-- The collection's table afterwards. -/
def newTable (op : EngineOp) (t : Table) : Table :=
  match op with
  | .write op => t.set op.docId op.line.slot
  | .compact _ => t.live

/-- The collection's indexes afterwards. -/
def newIndexes (op : EngineOp) (t : Table) (im : IndexManager) : IndexManager :=
  match op with
  | .write op => op.newIndexes t im
  | .compact _ => im.rebuild (DocumentStore.rows t)

end EngineOp

section Specs

variable {t : Table}

theorem WriteOp.specs_newIndexes (op : WriteOp) : (op.newIndexes t im).specs = im.specs := by
  cases op <;> simp [WriteOp.newIndexes]

theorem WALEntry.specs_newIndexes (e : WALEntry) : (e.newIndexes t im).specs = im.specs := by
  rcases e with ⟨_ | _ | _, c, i, d⟩ <;> simp [WALEntry.newIndexes]

theorem EngineOp.specs_newIndexes (op : EngineOp) : (op.newIndexes t im).specs = im.specs := by
  cases op with
  | write op => exact op.specs_newIndexes
  | compact c => exact im.specs_rebuild _

theorem WriteOp.collection_newIndexes (op : WriteOp) :
    (op.newIndexes t im).collection = im.collection := by
  cases op <;> simp [WriteOp.newIndexes, IndexManager.addToIndexes]

theorem WALEntry.collection_newIndexes (e : WALEntry) :
    (e.newIndexes t im).collection = im.collection := by
  rcases e with ⟨_ | _ | _, c, i, d⟩ <;> simp [WALEntry.newIndexes, IndexManager.addToIndexes]

theorem EngineOp.collection_newIndexes (op : EngineOp) :
    (op.newIndexes t im).collection = im.collection := by
  cases op with
  | write op => exact op.collection_newIndexes
  | compact c => exact im.collection_rebuild _

end Specs

/-- **A compaction** of a registered collection whose lock is free. -/
theorem run_compact (hw : Serving w) (him : w.mem.get? c = some im)
    (hfree : LockManager.blocked env (jsonlPath c) .exclusive = false) :
    (StorageEngine.compact c).run env w =
      ⟨.ok (), w.mem.set c (im.rebuild (DocumentStore.rows (tables w.disk c))),
        .replaceJsonl (jsonlPath c) (DocumentStore.rows (tables w.disk c)) ::
          (im.rebuild (DocumentStore.rows (tables w.disk c))).saveWrites⟩ := by
  have hc : c ∈ w.mem.keys := OrdDict.mem_keys_of_get? him
  obtain ⟨lines, hl⟩ := Option.isSome_iff_exists.mp (hw _ hc)
  rw [tables_of_lines hl]
  refine (run_exclusive hw hc hfree _).trans ?_
  refine (Prog.run_bind_read (DocumentStore.run_scan hl)).trans ?_
  exact run_write_indexes him fun disk => rfl

/-- **Every operation succeeds** on a registered collection whose lock is free,
and changes this collection as `newTable` and `newIndexes` say. -/
theorem perform_spec (op : EngineOp) (hw : Serving w)
    (him : w.mem.get? op.collection = some im)
    (hfree : LockManager.blocked env (jsonlPath op.collection) .exclusive = false) :
    op.perform.value env w = .ok () ∧
      Changed w (op.perform.exec env w) op.collection (op.newTable (tables w.disk op.collection))
        (op.newIndexes (tables w.disk op.collection) im) := by
  cases op with
  | write op =>
      have hrun := run_direct op hw him hfree
      exact ⟨congrArg Outcome.result hrun, changed_of_run (.append op.docId_line) hrun⟩
  | compact c =>
      have hrun := run_compact hw him hfree
      have hchanged := changed_of_run (.replace _) hrun
      rw [DocumentStore.table_rows (tables_wf w.disk _)] at hchanged
      exact ⟨congrArg Outcome.result hrun, hchanged⟩

/-- Without other clients the lock is always free. -/
theorem perform_spec_of_alone (op : EngineOp) (henv : env.Alone) (hw : Serving w)
    (him : w.mem.get? op.collection = some im) :
    op.perform.value env w = .ok () ∧
      Changed w (op.perform.exec env w) op.collection (op.newTable (tables w.disk op.collection))
        (op.newIndexes (tables w.disk op.collection) im) :=
  perform_spec op hw him (LockManager.blocked_of_alone henv (jsonlPath op.collection) .exclusive)

/-- Every operation is a block under the exclusive lock of its collection. -/
theorem perform_eq_exclusive (op : EngineOp) : ∃ block, op.perform =
    (require op.collection >>= fun _ =>
      LockManager.exclusive (jsonlPath op.collection) block) := by
  rcases op with (⟨c, i, d⟩ | ⟨c, i, d⟩ | ⟨c, i⟩) | c <;> exact ⟨_, rfl⟩

/-- An operation whose lock is held raises, and nothing has happened. -/
theorem run_perform_of_blocked (op : EngineOp) (hw : Serving w) (hc : op.collection ∈ w.mem.keys)
    (hheld : LockManager.blocked env (jsonlPath op.collection) .exclusive = true) :
    op.perform.run env w = ⟨.error (LockManager.timeoutError env .exclusive), w.mem, []⟩ := by
  obtain ⟨block, hperform⟩ := perform_eq_exclusive op
  rw [hperform, Prog.run_bind_read (run_require hc)]
  exact LockManager.run_locked_of_blocked (hw _ hc) hheld block

/-- On a registered collection an operation gets its lock and succeeds, or it
raises and nothing has happened. -/
theorem perform_cases (op : EngineOp) (env : Env) (hw : Serving w)
    (him : w.mem.get? op.collection = some im) :
    op.perform.run env w = ⟨.error (LockManager.timeoutError env .exclusive), w.mem, []⟩ ∨
      op.perform.value env w = .ok () ∧
        Changed w (op.perform.exec env w) op.collection
          (op.newTable (tables w.disk op.collection))
          (op.newIndexes (tables w.disk op.collection) im) := by
  rcases hheld : LockManager.blocked env (jsonlPath op.collection) .exclusive with _ | _
  · exact Or.inr (perform_spec op hw him hheld)
  · exact Or.inl (run_perform_of_blocked op hw
      (OrdDict.mem_keys_of_get? him) hheld)

/-! ### Sequences -/

/-- **A loop of changes.**  Where every turn of a loop succeeds on a registered
collection and changes it as `newTable` and `newIndexes` say, the loop succeeds
and keeps the collections; what one change keeps in step with an abstract
state, the loop keeps. -/
theorem forM_changed {β S : Type*} {f : β → EngineM Unit} {coll : β → String}
    {newTable : β → Table → Table} {newIndexes : β → Table → IndexManager → IndexManager}
    (R : Database → S → Prop) (step : S → β → S) {l : List β} {s : S} (hw : Serving w)
    (hspec : ∀ b ∈ l, ∀ w im, Serving w → w.mem.get? (coll b) = some im →
      (f b).value env w = .ok () ∧
        Changed w ((f b).exec env w) (coll b) (newTable b (tables w.disk (coll b)))
          (newIndexes b (tables w.disk (coll b)) im))
    (hreg : ∀ b ∈ l, coll b ∈ w.mem.keys) (h0 : R w s)
    (hstep : ∀ b ∈ l, ∀ w₁ w₂ s im, R w₁ s → w₁.mem.get? (coll b) = some im →
      Changed w₁ w₂ (coll b) (newTable b (tables w₁.disk (coll b)))
        (newIndexes b (tables w₁.disk (coll b)) im) → R w₂ (step s b)) :
    (l.forM f).value env w = .ok () ∧ Serving ((l.forM f).exec env w) ∧
      ((l.forM f).exec env w).mem.keys = w.mem.keys ∧
      R ((l.forM f).exec env w) (l.foldl step s) := by
  apply Prog.forM_simulation
    (fun w₁ s => Serving w₁ ∧ w₁.mem.keys = w.mem.keys ∧ R w₁ s) ⟨hw, rfl, h0⟩
  rintro b hb w₁ s ⟨hw₁, hkeys, hR⟩
  have hc : coll b ∈ w₁.mem.keys := hkeys ▸ hreg b hb
  obtain ⟨im, him⟩ := OrdDict.exists_get?_of_mem hc
  obtain ⟨hok, hchanged⟩ := hspec b hb w₁ im hw₁ him
  exact ⟨hok, hchanged.serving hc hw₁, (hchanged.keys hc).trans hkeys,
    hstep b hb w₁ _ s im hR him hchanged⟩

/-- Perform operations one after another. -/
def performAll (ops : List EngineOp) : EngineM Unit := ops.forM EngineOp.perform

/-- **A run of operations**, without other clients. -/
theorem performAll_simulation {S : Type*} (R : Database → S → Prop) (step : S → EngineOp → S)
    {ops : List EngineOp} {s : S} (henv : env.Alone) (hw : Serving w)
    (hreg : ∀ op ∈ ops, op.collection ∈ w.mem.keys) (h0 : R w s)
    (hstep : ∀ op ∈ ops, ∀ w₁ w₂ s im, R w₁ s → w₁.mem.get? op.collection = some im →
      Changed w₁ w₂ op.collection (op.newTable (tables w₁.disk op.collection))
        (op.newIndexes (tables w₁.disk op.collection) im) → R w₂ (step s op)) :
    (performAll ops).value env w = .ok () ∧ Serving ((performAll ops).exec env w) ∧
      ((performAll ops).exec env w).mem.keys = w.mem.keys ∧
      R ((performAll ops).exec env w) (ops.foldl step s) := by
  apply forM_changed R step hw _ hreg h0 hstep
  intro op _ w₁ im hw₁ him
  exact perform_spec_of_alone op henv hw₁ him

/-- The table of a collection after an entry was applied. -/
def WALEntry.newTable (e : WALEntry) (t : Table) : Table := t.set e.docId e.line.slot

/-- **A run of logged entries.**  No lock is taken. -/
theorem applyEntries_simulation {S : Type*} (env : Env) (R : Database → S → Prop)
    (step : S → WALEntry → S) {entries : List WALEntry} {s : S} (hw : Serving w)
    (hreg : ∀ e ∈ entries, e.collection ∈ w.mem.keys) (h0 : R w s)
    (hstep : ∀ e ∈ entries, ∀ w₁ w₂ s im, R w₁ s → w₁.mem.get? e.collection = some im →
      Changed w₁ w₂ e.collection (e.newTable (tables w₁.disk e.collection))
        (e.newIndexes (tables w₁.disk e.collection) im) → R w₂ (step s e)) :
    (entries.forM applyEntry).value env w = .ok () ∧
      Serving ((entries.forM applyEntry).exec env w) ∧
      ((entries.forM applyEntry).exec env w).mem.keys = w.mem.keys ∧
      R ((entries.forM applyEntry).exec env w) (entries.foldl step s) := by
  apply forM_changed R step hw _ hreg h0 hstep
  intro e _ w₁ im hw₁ him
  exact ⟨congrArg Outcome.result (run_applyEntry env e hw₁ him), changed_applyEntry env e hw₁ him⟩

/-- What entries put into the store, without and with deduplication. -/
theorem store_run_dedup (T : String → Table) (entries : List WALEntry) :
    store.run T ((WAL.dedup entries).map WALEntry.toPut) =
      store.run T (entries.map WALEntry.toPut) := by
  show store.run T ((WAL.dedup entries).map fun e => (e.target, e.line.slot)) = _
  rw [WAL.map_dedup fun e => e.line.slot, store.run_ofList]
  rfl

/-! ### A database to try statements on -/

/-- The only client of a database. -/
def onlyClient : Env :=
  ⟨"/db", .finite ⟨false, 5 * 2 ^ 50, -50, by decide, by decide, by decide, by decide⟩,
    fun _ => none, 0, fun file file' => file ≤ file'⟩

/-- One empty collection with an index on `email`. -/
def usersDb : Database where
  mem := OrdDict.ofList [("users", IndexManager.new "users" [⟨["email"], true⟩])]
  disk :=
    { Disk.empty with
      manifest := some (.payload (OrdDict.ofList [("users", [⟨["email"], true⟩])]))
      jsonl := fun file => if file = "users.jsonl" then some [] else none }

/-- A database without collections. -/
def emptyDb : Database := ⟨OrdDict.empty, .empty⟩

theorem emptyDb_serving : Serving emptyDb := fun _ h => absurd h List.not_mem_nil

theorem onlyClient_alone : onlyClient.Alone := fun _ => rfl

theorem usersDb_serving : Serving usersDb := by
  show ∀ c ∈ ["users"], _
  simp [usersDb, jsonlPath]

end JsonpySql
