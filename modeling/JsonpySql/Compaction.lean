/-
JsonpySql/Compaction.lean

What a compaction does, whatever the log was and whatever the indexes held.

The new file holds the rows of the old one, so it means the live part of the
table, in the same order; the indexes are rebuilt from the same rows, from
nothing.  Neither depends on the old indexes, and both depend on the table only
through its rows.  So a compaction answers every `get` and `scan` as before,
makes the forward indexes exact, and a second one finds nothing to do.
-/
import JsonpySql.Effects

namespace JsonpySql

open StorageEngine

/-! ### Rebuilt indexes -/

namespace IndexManager

/-- A rebuild does not look at the old indexes. -/
theorem rebuild_rebuild (im : IndexManager) (documents documents' : List Record) :
    (im.rebuild documents).rebuild documents' = im.rebuild documents' := by
  rw [rebuild_eq, collection_rebuild, specs_rebuild, ← rebuild_eq]

/-- The ids the rows of a table are filed under in a rebuild. -/
theorem map_getD_docId_rows {t : Table} (h : t.WF) :
    (DocumentStore.rows t).map (fun r => r.docId.getD "") = t.live.keys := by
  have hids := congrArg (List.map fun i : Option String => i.getD "") (Table.map_docId_rows h)
  rw [List.map_map, List.map_map] at hids
  exact hids.trans (List.map_id _)

/-- Under every key a rebuilt index lists the rows that have the key, in their
order. -/
theorem ids_rebuild (im : IndexManager) {t : Table} (h : t.WF) {e : IndexSpec × SortedDict}
    (he : e ∈ (im.rebuild (DocumentStore.rows t)).indexes) (key : String) :
    (InvertedIndex.ids e.2 key).map some =
      ((DocumentStore.rows t).filter fun r => e.1.key r.doc = key).map Record.docId := by
  rw [rebuild_eq] at he
  obtain ⟨spec, -, rfl⟩ := List.mem_map.mp he
  have hnodup : ((DocumentStore.rows t).map fun r => r.docId.getD "").Nodup := by
    rw [map_getD_docId_rows h]
    exact t.live.keys_nodup
  show (InvertedIndex.ids ((DocumentStore.rows t).foldl
    (fun idx r => idx.add (spec.key r.doc) (r.docId.getD "")) ∅) key).map some = _
  rw [InvertedIndex.ids_foldl_add hnodup, List.map_map]
  apply List.map_congr_left
  intro r hr
  -- every row carries an id
  obtain ⟨i, hi⟩ := Table.mem_rows.mp (List.mem_of_mem_filter hr)
  have hid : r.docId = some i := (h i r (Table.liveRow_eq_some_iff.mp hi)).1
  simp [hid]

end IndexManager

/-! ### Compaction -/

variable {env : Env} {w : Database} {c : String} {im : IndexManager}

theorem compact_spec (hw : Serving w) (him : w.mem.get? c = some im)
    (hfree : LockManager.blocked env (jsonlPath c) .exclusive = false) :
    (StorageEngine.compact c).value env w = .ok () ∧
      Changed w ((StorageEngine.compact c).exec env w) c (tables w.disk c).live
        (im.rebuild (DocumentStore.rows (tables w.disk c))) :=
  perform_spec (.compact c) hw him hfree

/-- The directory after a compaction. -/
theorem disk_compact (hw : Serving w) (him : w.mem.get? c = some im)
    (hfree : LockManager.blocked env (jsonlPath c) .exclusive = false) :
    ((StorageEngine.compact c).exec env w).disk =
      applyAll
        (w.disk.write (.replaceJsonl (jsonlPath c) (DocumentStore.rows (tables w.disk c))))
        (im.rebuild (DocumentStore.rows (tables w.disk c))).saveWrites :=
  congrArg World.disk (Prog.exec_of_run (run_compact hw him hfree))

/-- The lines of the file after a compaction. -/
theorem jsonl_compact (hw : Serving w) (him : w.mem.get? c = some im)
    (hfree : LockManager.blocked env (jsonlPath c) .exclusive = false) :
    ((StorageEngine.compact c).exec env w).disk.jsonl (jsonlPath c) =
      some (DocumentStore.rows (tables w.disk c)) := by
  rw [disk_compact hw him hfree, (IndexManager.sameData_saveWrites _ _).jsonl]
  exact Function.update_self ..

/-- **A second compaction finds nothing to do.** -/
theorem exec_compact_compact (hw : Serving w) (him : w.mem.get? c = some im)
    (hfree : LockManager.blocked env (jsonlPath c) .exclusive = false) :
    (StorageEngine.compact c).value env ((StorageEngine.compact c).exec env w) = .ok () ∧
      (StorageEngine.compact c).exec env ((StorageEngine.compact c).exec env w) =
        (StorageEngine.compact c).exec env w := by
  have hc : c ∈ w.mem.keys := OrdDict.mem_keys_of_get? him
  obtain ⟨-, hchanged⟩ := compact_spec hw him hfree
  have hrun := run_compact hw him hfree
  set w' := (StorageEngine.compact c).exec env w
  have hw' : Serving w' := hchanged.serving hc hw
  have him' : w'.mem.get? c = some (im.rebuild (DocumentStore.rows (tables w.disk c))) :=
    hchanged.get?_self
  -- the rows are the same, so the file and the indexes are
  have hrows : DocumentStore.rows (tables w'.disk c) = DocumentStore.rows (tables w.disk c) := by
    rw [hchanged.table_self]
    exact Table.rows_live _
  have hdisk := disk_compact hw' him' hfree
  have hfile := jsonl_compact hw him hfree
  rw [hrows, IndexManager.rebuild_rebuild] at hdisk
  have hrun' := run_compact hw' him' hfree
  refine ⟨congrArg Outcome.result hrun', ?_⟩
  have hmem' : ((StorageEngine.compact c).exec env w').mem = w'.mem := by
    rw [Prog.exec, hrun', hrows, IndexManager.rebuild_rebuild]
    exact OrdDict.set_of_get? him'
  have hdisk' : ((StorageEngine.compact c).exec env w').disk = w'.disk := by
    have hsame : w'.disk.write
        (.replaceJsonl (jsonlPath c) (DocumentStore.rows (tables w.disk c))) = w'.disk := by
      rw [Disk.write, ← hfile, Function.update_eq_self]
    rw [hdisk, hsame, disk_compact hw him hfree, IndexManager.applyAll_saveWrites_twice]
  exact congrArg₂ World.mk hmem' hdisk'

/-- **Compaction keeps the documents and heals the forward indexes**, whatever
the log and the indexes were: scans and gets answer as before, the file holds
one line for every row and no tombstone, every key of every index lists exactly
the rows with this key, in scan order, and no list is empty.  A second
compaction changes nothing. -/
theorem compact_heals (c : String) (henv : env.Alone) (hw : Serving w)
    (hc : c ∈ w.mem.keys) :
    let p := StorageEngine.compact c
    let w' := p.exec env w
    p.value env w = .ok () ∧
      (∀ i, (StorageEngine.get c i).value env w' = (StorageEngine.get c i).value env w) ∧
      (∃ rows im im', (StorageEngine.scan c).value env w = .ok rows ∧
        (StorageEngine.scan c).value env w' = .ok rows ∧
        (DocumentStore.countLines (jsonlPath c) : EngineM _).value env w' =
          .ok (rows.length, 0) ∧
        w.mem.get? c = some im ∧ w'.mem.get? c = some im' ∧ im'.specs = im.specs ∧
        ∀ e ∈ im'.indexes, ∀ key : String,
          (InvertedIndex.ids e.2 key).map some =
            (rows.filter fun r => e.1.key r.doc = key).map Record.docId ∧
          (InvertedIndex.ids e.2 key).Nodup ∧ e.2[key]? ≠ some []) ∧
      p.value env w' = .ok () ∧ p.exec env w' = w' := by
  intro p w'
  obtain ⟨im, him⟩ := OrdDict.exists_get?_of_mem hc
  have hfree := LockManager.blocked_of_alone henv (jsonlPath c) .exclusive
  obtain ⟨hok, hchanged⟩ := compact_spec hw him hfree
  have hwf := tables_wf w.disk c
  have hw' : Serving w' := hchanged.serving hc hw
  have hc' : c ∈ w'.mem.keys := OrdDict.mem_keys_of_get? hchanged.get?_self
  have htable : tables w'.disk c = (tables w.disk c).live := hchanged.table_self
  refine ⟨hok, fun i => ?_, ?_, exec_compact_compact hw him hfree⟩
  · rw [value_get henv hw' hc', value_get henv hw hc, htable, Table.get_eq_map_liveRow,
      Table.liveRow_live]
    rfl
  · refine ⟨_, im, im.rebuild (DocumentStore.rows (tables w.disk c)), value_scan henv hw hc,
      ?_, ?_, him, hchanged.get?_self, im.specs_rebuild _, ?_⟩
    · rw [value_scan henv hw' hc', htable, Table.rows_live]
    · -- the file holds the rows, and none of them is a tombstone
      have hnone : ∀ r ∈ DocumentStore.rows (tables w.disk c), ¬r.deleted = true := fun r hr =>
        ne_true_of_eq_false (Table.deleted_of_mem_rows hwf hr)
      rw [Prog.value, DocumentStore.run_countLines (jsonl_compact hw him hfree),
        DocumentStore.foldl_countStep, Nat.zero_add, Nat.zero_add, List.countP_eq_zero.mpr hnone]
    · intro e he key
      have hexact := im.exact_rebuild hwf e he
      exact ⟨im.ids_rebuild hwf he key, hexact.nodup key, hexact.ne_nil key⟩

/-- A log with an overwritten line, a tombstone and a re-insert, under indexes
that list nothing. -/
theorem compact_heals_users :
    let lines : List Record :=
      [.ofDoc "2" (OrdDict.ofList [("email", .str "b")]),
        .ofDoc "1" (OrdDict.ofList [("email", .str "a")]), .tombstone "2",
        .ofDoc "1" (OrdDict.ofList [("email", .str "c")]),
        .ofDoc "2" (OrdDict.ofList [("email", .str "c")])]
    let w : Database :=
      { usersDb with disk := usersDb.disk.write (.replaceJsonl "users.jsonl" lines) }
    let w' := (StorageEngine.compact "users").exec onlyClient w
    (StorageEngine.compact "users").value onlyClient w = .ok () ∧
      (StorageEngine.compact "users").exec onlyClient w' = w' := by
  intro lines w w'
  have hw : Serving w := by
    show ∀ c ∈ ["users"], _
    simp [w, Disk.write, jsonlPath]
  obtain ⟨hok, -, -, -, hagain⟩ := compact_heals "users" onlyClient_alone hw (by decide)
  exact ⟨hok, hagain⟩

end JsonpySql
