/-
JsonpySql/CrashedCompaction.lean

Crashes in the middle of a compaction.

A compaction replaces the file of documents and then the index files one after
another, each through a temporary file that opening does not read.  Whatever
was replaced when the process stopped, the documents are the same, and so are
the live ids with their keys: the old indexes and the rebuilt ones are exact
for the old file and for the new one (`StillExact`).  So opening the directory
again answers as before (`compaction_crashSafe`).
-/
import JsonpySql.CrashedWrites

namespace JsonpySql

open StorageEngine

/-! ### Temporary files -/

/-- The directory together with the temporary files in it, each with the number
of chunks it has been given.  What an engine reads is `disk`. -/
structure Directory where
  disk : Disk
  temporary : String → Option ℕ

/-- A step on the file system. -/
inductive FileStep
  | openTemporary (file : String)
  | extendTemporary (file : String)
  | complete (write : DiskWrite)

namespace DiskWrite

/-- The temporary file a replacement is written to. -/
def temporaryOf : DiskWrite → Option String
  | .replaceJsonl file _ | .replaceIdx file _ | .replaceRidx file _ => some (file ++ ".tmp")
  | .replaceManifest _ => some "manifest.json.tmp"
  | _ => none

/-- The steps of one write: a replacement fills its temporary file, chunk by
chunk, and then moves it. -/
def steps (chunks : DiskWrite → ℕ) (dw : DiskWrite) : List FileStep :=
  match dw.temporaryOf with
  | none => [.complete dw]
  | some file =>
      .openTemporary file :: (List.replicate (chunks dw) (.extendTemporary file) ++ [.complete dw])

end DiskWrite

/-- Perform one step. -/
def Directory.step (D : Directory) : FileStep → Directory
  | .openTemporary file => { D with temporary := Function.update D.temporary file (some 0) }
  | .extendTemporary file =>
      { D with temporary := Function.update D.temporary file ((D.temporary file).map (· + 1)) }
  | .complete dw =>
      ⟨D.disk.write dw, match dw.temporaryOf with
        | none => D.temporary
        | some file => Function.update D.temporary file none⟩

instance : Storage Directory FileStep := ⟨Directory.step⟩

section Directory

variable (chunks : DiskWrite → ℕ)

/-- Before its last step a write has changed temporary files only. -/
theorem DiskWrite.steps_eq (dw : DiskWrite) : ∃ filling : List FileStep,
    dw.steps chunks = filling ++ [.complete dw] ∧
      ∀ n, ∀ D : Directory, (applyAll D (filling.take n)).disk = D.disk := by
  rcases htemp : dw.temporaryOf with _ | file
  · refine ⟨[], by rw [steps, htemp]; rfl, fun n D => ?_⟩
    rw [List.take_nil]
    rfl
  · refine ⟨.openTemporary file :: List.replicate (chunks dw) (.extendTemporary file),
      by rw [steps, htemp]; rfl, fun n D => ?_⟩
    apply applyAll_induction (P := fun D' : Directory => D'.disk = D.disk) rfl
    intro step hstep D' hD'
    rcases List.mem_cons.mp (List.mem_of_mem_take hstep) with rfl | hrest
    · exact hD'
    · obtain rfl := List.eq_of_mem_replicate hrest
      exact hD'

/-- **Wherever the steps of some writes stop**, what an engine reads is as after
some of the writes. -/
theorem disk_take_steps (ws : List DiskWrite) (n : ℕ) (D : Directory) : ∃ k,
    (applyAll D ((ws.flatMap (DiskWrite.steps chunks)).take n)).disk =
      applyAll D.disk (ws.take k) := by
  induction ws generalizing D n with
  | nil =>
      refine ⟨0, ?_⟩
      rw [List.flatMap_nil, List.take_nil]
      rfl
  | cons dw ws ih =>
      obtain ⟨filling, hsteps, hfilling⟩ := dw.steps_eq chunks
      have hsplit : (dw :: ws).flatMap (DiskWrite.steps chunks) =
          filling ++ .complete dw :: ws.flatMap (DiskWrite.steps chunks) := by
        rw [List.flatMap_cons, hsteps, List.append_assoc]
        rfl
      rw [hsplit, List.take_append, applyAll_append]
      rcases hleft : n - filling.length with _ | m
      -- the temporary file is not moved yet
      · refine ⟨0, ?_⟩
        rw [List.take_zero, applyAll_nil]
        exact hfilling n D
      · obtain ⟨k, hk⟩ := ih m ((applyAll D (filling.take n)).step (.complete dw))
        refine ⟨k + 1, hk.trans ?_⟩
        rw [List.take_succ_cons, applyAll_cons]
        show applyAll ((applyAll D (filling.take n)).disk.write dw) _ = _
        rw [hfilling]
        rfl

end Directory

/-! ### Directories that answer as before -/

variable {env : Env} {w w' : Database} {c : String} {im : IndexManager} {T : String → Table}
  {d : Disk}

/-- The two databases list the same ids under every value, and in every range,
of each field the first one has an index for. -/
def SameListedIds (env : Env) (w w' : Database) : Prop :=
  ∀ c im, w.mem.get? c = some im → ∀ field, (∃ spec ∈ im.specs, spec.fields = [field]) →
    (∀ v, ∃ ids ids', (StorageEngine.lookup c field v).value env w = .ok ids ∧
      (StorageEngine.lookup c field v).value env w' = .ok ids' ∧ ∀ i, i ∈ ids ↔ i ∈ ids') ∧
    ∀ low high, ∃ ids ids', (StorageEngine.rangeScan c field low high).value env w = .ok ids ∧
      (StorageEngine.rangeScan c field low high).value env w' = .ok ids' ∧
      ∀ i, i ∈ ids ↔ i ∈ ids'

/-- Exact indexes over the same rows list the same ids. -/
theorem sameListedIds_of_exact (henv : env.Alone) (hw : Serving w) (hw' : Serving w')
    (hexact : ∀ c im, w.mem.get? c = some im → im.Exact (tables w.disk c) ∧
      ∃ im', w'.mem.get? c = some im' ∧ im'.specs = im.specs ∧ im'.Exact (tables w'.disk c))
    (hrows : ∀ c, DocumentStore.rows (tables w'.disk c) = DocumentStore.rows (tables w.disk c)) :
    SameListedIds env w w' := by
  intro c im him field hfield
  obtain ⟨hold, im', him', hspecs, hnew⟩ := hexact c im him
  have hfield' : ∃ spec ∈ im'.specs, spec.fields = [field] := hspecs ▸ hfield
  have hhas := IndexManager.hasIndexFor_of_mem hfield
  have hhas' := IndexManager.hasIndexFor_of_mem hfield'
  refine ⟨fun v => ⟨_, _, value_lookup henv hw him field v, value_lookup henv hw' him' field v,
    fun i => ?_⟩, fun low high => ⟨_, _, value_rangeScan him hhas low high,
      value_rangeScan him' hhas' low high, fun i => ?_⟩⟩
  · rw [lookupIn, if_pos hhas, lookupIn, if_pos hhas',
      (hold.mem_lookup (tables_wf _ _) hfield v).2 i,
      (hnew.mem_lookup (tables_wf _ _) hfield' v).2 i, hrows]
  · rw [(hold.mem_rangeScan (tables_wf _ _) hfield low high).2 i,
      (hnew.mem_rangeScan (tables_wf _ _) hfield' low high).2 i, hrows]

/-- The directory has the rows of `w` in every collection, and in every index
file an index that lists the live documents exactly. -/
structure StillExact (w : Database) (T : String → Table) (d : Disk) : Prop where
  holds : Holds (catalog w.mem) OrdDict.empty T d
  rows : ∀ c, DocumentStore.rows (T c) = DocumentStore.rows (tables w.disk c)
  idx : ∀ c im, w.mem.get? c = some im → ∀ e ∈ im.indexes, ∃ idx,
    d.idx (IndexManager.idxPath c e.1) = some (IndexManager.idxPayload e.1 idx) ∧
      InvertedIndex.Exact idx (IndexManager.keyOf e.1 (T c))

/-- The indexes opening finds in such a directory. -/
theorem StillExact.exact_openedIndexes (hd : StillExact w T d) (him : w.mem.get? c = some im) :
    (openedIndexes env d c im.specs).Exact (T c) := by
  have hpresent : ¬MissingIdx d c im.specs := by
    rw [missingIdx_iff]
    rintro ⟨spec, hspec, hnone⟩
    obtain ⟨e, he, rfl⟩ := List.mem_map.mp hspec
    obtain ⟨idx, hidx, -⟩ := hd.idx c im him e he
    rw [hidx] at hnone
    cases hnone
  intro e he
  rw [openedIndexes_of_not_missing hpresent, indexes_loaded_new] at he
  obtain ⟨spec, hspec, rfl⟩ := List.mem_map.mp he
  obtain ⟨e₀, he₀, rfl⟩ := List.mem_map.mp hspec
  obtain ⟨idx, hidx, hexact⟩ := hd.idx c im him e₀ he₀
  rw [loadedIdx_of_payload hidx]
  exact hexact

/-- **Opening such a directory answers as `w` does.** -/
theorem StillExact.answers (hd : StillExact w T d) (h : Intact w) (henv : env.Alone) :
    let w' := init.exec env ⟨OrdDict.empty, d⟩
    init.value env ⟨OrdDict.empty, d⟩ = .ok () ∧ SameAnswers env w w' ∧ SameListedIds env w w' := by
  intro w'
  obtain ⟨hmem, hkeys, htables, hw'⟩ := opened_spec env hd.holds h.separate
  have hw := h.consistent.serving
  have hrows : ∀ c, DocumentStore.rows (tables w'.disk c) =
      DocumentStore.rows (tables w.disk c) := fun c => by rw [htables, hd.rows]
  refine ⟨congrArg Outcome.result (run_init env hd.holds h.separate), ?_, ?_⟩
  · rw [sameAnswers_iff henv hw hw' (hkeys.trans (keys_catalog w.mem))]
    refine fun c _ => ⟨fun i => ?_, (hrows c).symm⟩
    -- the row of an id is the one that carries it
    have hlive : (tables w.disk c).liveRow i = (tables w'.disk c).liveRow i := by
      refine Option.ext fun r => ?_
      rw [Table.liveRow_eq_some_iff_rows (tables_wf _ _),
        Table.liveRow_eq_some_iff_rows (tables_wf _ _), hrows]
    rw [Table.get_eq_map_liveRow, Table.get_eq_map_liveRow, hlive]
  · refine sameListedIds_of_exact henv hw hw' (fun c im him => ⟨h.exact c im him, ?_⟩) hrows
    refine ⟨openedIndexes env d c im.specs, ?_, specs_openedIndexes env d c im.specs, ?_⟩
    · rw [hmem]
      exact get?_openedRegistry (get?_catalog him) env d
    · rw [htables]
      exact hd.exact_openedIndexes him

/-! ### A crashed compaction -/

/-- An intact directory is one. -/
theorem Intact.stillExact (h : Intact w) (hlogs : w.disk.wal = OrdDict.empty) :
    StillExact w (tables w.disk) w.disk where
  holds := h.holds hlogs
  rows _ := rfl
  idx c im him e he := ⟨e.2, h.get?_idx him he, h.exact c im him e he⟩

/-- Replacing a file of documents by its rows. -/
theorem Holds.replaceJsonl {reg : Catalog} {wal : OrdDict String (List WalLine)}
    (h : Holds reg wal T d) (c : String) :
    Holds reg wal (Function.update T c (T c).live)
      (d.write (.replaceJsonl (jsonlPath c) (DocumentStore.rows (T c)))) where
  manifest := h.manifest
  files c' hc' := (DataWrite.replace _).frame.2.2 _ (h.files c' hc')
  wal := h.wal
  tables := by
    rw [tables_replaceJsonl, h.tables, DocumentStore.table_rows]
    exact h.tables ▸ tables_wf d c
  text := h.text

/-- After the file of documents and the first `n` index files. -/
theorem Intact.stillExact_compacted (h : Intact w) (hlogs : w.disk.wal = OrdDict.empty)
    (him : w.mem.get? c = some im) (n : ℕ) :
    let rows := DocumentStore.rows (tables w.disk c)
    StillExact w (Function.update (tables w.disk) c (tables w.disk c).live)
      (applyAll (w.disk.write (.replaceJsonl (jsonlPath c) rows))
        ((im.rebuild rows).saveWrites.take n)) := by
  intro rows
  have hindexes : (im.rebuild rows).indexes = im.indexes.map fun e => (e.1, rows.foldl
      (fun idx r => idx.add (e.1.key r.doc) (r.docId.getD "")) ∅) := by
    rw [IndexManager.rebuild_eq, IndexManager.specs, List.map_map]
    rfl
  -- an id has the key it had
  have hkeyOf : ∀ c₁ spec, IndexManager.keyOf spec
      (Function.update (tables w.disk) c (tables w.disk c).live c₁) =
        IndexManager.keyOf spec (tables w.disk c₁) := by
    intro c₁ spec
    rcases eq_or_ne c₁ c with rfl | hne
    · rw [Function.update_self]
      exact IndexManager.keyOf_congr (Table.liveRow_live _) spec
    · rw [Function.update_of_ne hne]
  refine ⟨?_, fun c₁ => ?_, fun c₁ im₁ him₁ e he => ?_⟩
  · refine ((h.holds hlogs).replaceJsonl c).sameData (Disk.sameData_applyAll ?_ _)
    exact fun dw hdw => IndexManager.isIndex_saveWrites _ dw (List.mem_of_mem_take hdw)
  · rcases eq_or_ne c₁ c with rfl | hne
    · rw [Function.update_self]
      exact Table.rows_live _
    · rw [Function.update_of_ne hne]
  · rw [IndexManager.idx_take_saveWrites, hkeyOf]
    refine ⟨_, h.idx_take_files him hindexes (IndexManager.collection_rebuild _ _) n him₁ he, ?_⟩
    split
    -- the file was replaced by the rebuilt index
    · next hnew =>
        obtain ⟨rfl, -⟩ := hnew
        obtain rfl : im = im₁ := Option.some.inj (him.symm.trans him₁)
        apply im.exact_rebuild (tables_wf w.disk c₁) (e.1, _)
        rw [hindexes]
        exact List.mem_map_of_mem he
    · exact h.exact c₁ im₁ him₁ e he

/-- Wherever a compaction stops. -/
theorem Intact.stillExact_crashed (h : Intact w) (hlogs : w.disk.wal = OrdDict.empty) (env : Env)
    (c : String) (k : ℕ) : ∃ T, StillExact w T ((StorageEngine.compact c).crashAt env w k) := by
  -- a compaction that raises has written nothing
  have hraised : ((StorageEngine.compact c).run env w).writes = [] →
      StillExact w (tables w.disk) ((StorageEngine.compact c).crashAt env w k) := by
    intro hnil
    rw [Prog.crashAt, hnil, List.take_nil]
    exact h.stillExact hlogs
  have hw := h.consistent.serving
  rcases him : w.mem.get? c with _ | im
  · have hrun := run_perform_of_notMem (.compact c) env (OrdDict.get?_eq_none_iff.mp him)
    exact ⟨_, hraised (congrArg Outcome.writes hrun)⟩
  rcases hheld : LockManager.blocked env (jsonlPath c) .exclusive with _ | _
  · have hrun := run_compact hw him hheld
    rw [Prog.crashAt, hrun]
    cases k with
    | zero => exact ⟨_, h.stillExact hlogs⟩
    | succ n => exact ⟨_, h.stillExact_compacted hlogs him n⟩
  · have hrun := run_perform_of_blocked (.compact c) hw (OrdDict.mem_keys_of_get? him) hheld
    exact ⟨_, hraised (congrArg Outcome.writes hrun)⟩

/-- **Compaction is crash-safe.**  The process may stop anywhere in a compaction:
while a temporary file is filled, before or after it is moved.  Opening the
directory answers every `get` and `scan` as before, and lists the same ids under
every value and in every range of an indexed field. -/
theorem compaction_crashSafe (c : String) (env₀ env : Env) (chunks : DiskWrite → ℕ)
    (temporary : String → Option ℕ) (n : ℕ) (henv : env.Alone) (h : Intact w)
    (hlogs : w.disk.wal = OrdDict.empty) :
    let writes := ((StorageEngine.compact c).run env₀ w).writes
    let D := applyAll (⟨w.disk, temporary⟩ : Directory)
      ((writes.flatMap (DiskWrite.steps chunks)).take n)
    let w' := init.exec env ⟨OrdDict.empty, D.disk⟩
    init.value env ⟨OrdDict.empty, D.disk⟩ = .ok () ∧ SameAnswers env w w' ∧
      SameListedIds env w w' := by
  intro writes D w'
  obtain ⟨k, hk⟩ := disk_take_steps chunks writes n ⟨w.disk, temporary⟩
  have hcrash : D.disk = (StorageEngine.compact c).crashAt env₀ w k := hk
  obtain ⟨T, hd⟩ := h.stillExact_crashed hlogs env₀ c k
  rw [← hcrash] at hd
  exact hd.answers h henv

/-- One user, and a compaction that stops while the second file is written. -/
theorem compaction_crashSafe_users :
    let writes := ((StorageEngine.compact "users").run onlyClient oneUserDb).writes
    let D := applyAll (⟨oneUserDb.disk, fun _ => none⟩ : Directory)
      ((writes.flatMap (DiskWrite.steps fun _ => 1)).take 4)
    SameAnswers onlyClient oneUserDb (init.exec onlyClient ⟨OrdDict.empty, D.disk⟩) :=
  (compaction_crashSafe "users" onlyClient onlyClient (fun _ => 1) (fun _ => none) 4
    onlyClient_alone oneUserDb_intact rfl).2.1

end JsonpySql
