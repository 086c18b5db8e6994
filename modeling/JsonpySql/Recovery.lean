/-
JsonpySql/Recovery.lean

Crashes, and opening a directory.

`Holds reg wal T d` says what counts of a directory: its registry, its logs and
its tables.  Writing saved indexes changes none of it, so between two of its
states a run passes through only as many as it appends lines or removes logs.
A partial replay of a log is a partial run of its entries, and these are
absorbed by the next full one (`LastWins.Absorbs`): however often a commit and
the recoveries after it are interrupted, the first recovery that runs to its
end leaves what an uninterrupted commit leaves (`commit_completes`).
-/
import JsonpySql.Transactions

namespace JsonpySql

open StorageEngine

/-- The registered collections with the specs of their indexes, as the
manifest holds them. -/
abbrev Catalog := OrdDict String (List IndexSpec)

/-- The catalog of an engine. -/
def catalog (registry : Registry) : Catalog := registry.mapValues IndexManager.specs

section

variable {w : Database} {c : String} {im im' : IndexManager}

theorem get?_catalog (him : w.mem.get? c = some im) :
    (catalog w.mem).get? c = some im.specs := by
  rw [catalog, OrdDict.get?_mapValues, him]
  rfl

/-- Changing indexes, but not their specs, keeps the catalog. -/
theorem catalog_set (him : w.mem.get? c = some im) (hspecs : im'.specs = im.specs) :
    catalog (w.mem.set c im') = catalog w.mem := by
  rw [catalog, OrdDict.mapValues_set, hspecs]
  exact OrdDict.set_of_get? (get?_catalog him)

theorem exists_of_catalog {specs : List IndexSpec} (h : (catalog w.mem).get? c = some specs) :
    ∃ im, w.mem.get? c = some im ∧ im.specs = specs := by
  rw [catalog, OrdDict.get?_mapValues] at h
  exact Option.map_eq_some_iff.mp h

end

/-! ### What a directory holds -/

/-- The directory registers the collections of `reg`.  Before the first one is created
it has no manifest. -/
def Disk.Registers (d : Disk) (reg : Catalog) : Prop :=
  d.manifest = some (.payload reg) ∨ d.manifest = none ∧ reg = OrdDict.empty

theorem Disk.Registers.congr {d d' : Disk} {reg : Catalog} (h : d.Registers reg)
    (hd : d'.manifest = d.manifest) : d'.Registers reg := by
  rw [Registers, hd]
  exact h

/-- Whoever has a collection has written the manifest. -/
theorem Disk.Registers.manifest {d : Disk} {reg : Catalog} (h : d.Registers reg) {c : String}
    (hc : c ∈ reg.keys) : d.manifest = some (.payload reg) := by
  refine h.resolve_right fun hempty => ?_
  rw [hempty.2] at hc
  cases hc

/-- A directory with registry `reg`, logs `wal` and tables `T`.  What the index files
say is left open, as long as they are text. -/
structure Holds (reg : Catalog) (wal : OrdDict String (List WalLine)) (T : String → Table)
    (d : Disk) : Prop where
  manifest : d.Registers reg
  files : ∀ c ∈ reg.keys, (d.jsonl (jsonlPath c)).isSome
  wal : d.wal = wal
  tables : tables d = T
  text : ∀ e ∈ reg.entries, IndexManager.Readable d e.1 e.2

/-- An engine with catalog `reg` on such a directory. -/
structure Open (reg : Catalog) (wal : OrdDict String (List WalLine)) (w : Database)
    (T : String → Table) : Prop where
  catalog : catalog w.mem = reg
  holds : Holds reg wal T w.disk

/-- The state of an engine between two calls: every registered collection has
its file, the manifest is the registry, and the index files are text.  A new
database has nothing of this yet. -/
structure Consistent (w : Database) : Prop where
  serving : Serving w
  manifest : w.disk.Registers (catalog w.mem)
  text : ∀ e ∈ (catalog w.mem).entries, IndexManager.Readable w.disk e.1 e.2

variable {reg : Catalog} {wal : OrdDict String (List WalLine)} {T : String → Table}
  {d d' : Disk} {env : Env} {w : Database}

@[simp] theorem keys_catalog (registry : Registry) : (catalog registry).keys = registry.keys :=
  OrdDict.keys_mapValues ..

theorem Open.keys (h : Open reg wal w T) : w.mem.keys = reg.keys := by
  rw [← h.catalog, keys_catalog]

theorem Open.serving (h : Open reg wal w T) : Serving w := fun c hc =>
  h.holds.files c (h.keys ▸ hc)

theorem Open.consistent (h : Open reg wal w T) : Consistent w where
  serving := h.serving
  manifest := h.catalog.symm ▸ h.holds.manifest
  text := by
    rw [h.catalog]
    exact h.holds.text

theorem Consistent.isOpen (h : Consistent w) :
    Open (catalog w.mem) w.disk.wal w (tables w.disk) where
  catalog := rfl
  holds := ⟨h.manifest, fun c hc => h.serving c (keys_catalog w.mem ▸ hc), rfl, rfl, h.text⟩

theorem Holds.sameData (h : Holds reg wal T d) (hd : d.SameData d') : Holds reg wal T d' where
  manifest := h.manifest.congr hd.manifest
  files := by
    rw [hd.jsonl]
    exact h.files
  wal := hd.wal.trans h.wal
  tables := (tables_congr hd).trans h.tables
  text e he := (h.text e he).keep hd.text

/-- Appending a line writes one document of the tables. -/
theorem Holds.appendJsonl (h : Holds reg wal T d) (c : String) {line : Record} {i : String}
    (hline : line.docId = some i) :
    Holds reg wal (store.put T (c, i) line.slot) (d.write (.appendJsonl (jsonlPath c) line)) where
  manifest := h.manifest
  files c' hc' := (DataWrite.append hline).frame.2.2 _ (h.files c' hc')
  wal := h.wal
  tables := by rw [tables_appendJsonl d c hline, h.tables]
  text := h.text

theorem Holds.unlinkWal (h : Holds reg wal T d) (file : String) :
    Holds reg (wal.erase file) T (d.write (.unlinkWal file)) where
  manifest := h.manifest
  files := h.files
  wal := by
    show d.wal.erase file = _
    rw [h.wal]
  tables := h.tables
  text := h.text

theorem Holds.appendWal (h : Holds reg wal T d) (file : String) (line : WalLine) :
    Holds reg (wal.set file ((wal.get? file).getD [] ++ [line])) T
      (d.write (.appendWal file line)) where
  manifest := h.manifest
  files := h.files
  wal := by
    show d.wal.set file ((d.wal.get? file).getD [] ++ [line]) = _
    rw [h.wal]
  tables := h.tables
  text := h.text

/-- A change keeps a directory consistent if it keeps the specs. -/
theorem Changed.isOpen {w' : Database} {c : String} {t' : Table} {im im' : IndexManager}
    (h : Open reg wal w T) (him : w.mem.get? c = some im) (hchanged : Changed w w' c t' im')
    (hspecs : im'.specs = im.specs) : Open reg wal w' (Function.update T c t') where
  catalog := by
    have hget : (JsonpySql.catalog w.mem).get? c = some im.specs := by
      rw [JsonpySql.catalog, OrdDict.get?_mapValues, him]
      rfl
    rw [JsonpySql.catalog, hchanged.mem, OrdDict.mapValues_set, hspecs]
    exact (OrdDict.set_of_get? hget).trans h.catalog
  holds :=
    { manifest := h.holds.manifest.congr hchanged.manifest
      files := fun c' hc' => hchanged.files _ (h.holds.files c' hc')
      wal := hchanged.wal.trans h.holds.wal
      tables := by rw [hchanged.tables, h.holds.tables]
      text := fun e he => (h.holds.text e he).keep hchanged.text }

/-! ### Replaying entries -/

/-- An entry as recovery applies it: one on an unregistered collection is
skipped. -/
def replayStep (reg : Catalog) (T : String → Table) (e : WALEntry) : String → Table :=
  if e.collection ∈ reg.keys then entryTableStep T e else T

theorem foldl_replayStep {entries : List WALEntry} (hreg : ∀ e ∈ entries, e.collection ∈ reg.keys)
    (T : String → Table) :
    entries.foldl (replayStep reg) T = store.run T (entries.map WALEntry.toPut) := by
  rw [← foldl_entryTableStep]
  induction entries generalizing T with
  | nil => rfl
  | cons e entries ih =>
      rw [List.foldl_cons, List.foldl_cons, replayStep, if_pos (hreg e List.mem_cons_self)]
      exact ih (fun e' he' => hreg e' (List.mem_cons_of_mem _ he')) _

/-- Applying an entry, whole or interrupted. -/
theorem applyEntry_turn (env : Env) (e : WALEntry) (h : Open reg wal w T)
    (hc : e.collection ∈ reg.keys) :
    (applyEntry e).value env w = .ok () ∧
      Open reg wal ((applyEntry e).exec env w) (entryTableStep T e) ∧
      ∀ k, Holds reg wal T ((applyEntry e).crashAt env w k) ∨
        Holds reg wal (entryTableStep T e) ((applyEntry e).crashAt env w k) := by
  have hc' : e.collection ∈ w.mem.keys := h.keys ▸ hc
  obtain ⟨im, him⟩ := OrdDict.exists_get?_of_mem hc'
  have hrun := run_applyEntry env e h.serving him
  have hchanged := changed_applyEntry env e h.serving him
  refine ⟨congrArg Outcome.result hrun, ?_, fun k => ?_⟩
  · have hopen := hchanged.isOpen h him e.specs_newIndexes
    rw [h.holds.tables] at hopen
    exact hopen
  · rw [Prog.crashAt, hrun]
    cases k with
    | zero => exact Or.inl h.holds
    | succ k =>
        -- the line is appended, and some index files are replaced
        right
        rw [List.take_succ_cons, applyAll_cons]
        refine (h.holds.appendJsonl e.collection e.docId_line).sameData ?_
        exact Disk.sameData_applyAll
          (fun dw hdw => IndexManager.isIndex_saveWrites _ dw (List.mem_of_mem_take hdw)) _

theorem run_replayEntry_of_mem {e : WALEntry} (h : Open reg wal w T)
    (hc : e.collection ∈ reg.keys) :
    (replayEntry e).run env w = (applyEntry e).run env w := by
  obtain ⟨hok, -⟩ := applyEntry_turn env e h hc
  have hok' : ((applyEntry e).run env w).result = .ok () := hok
  rw [replayEntry, Prog.run_tryCatch, hok']

theorem run_replayEntry_of_notMem {e : WALEntry} (hc : e.collection ∉ w.mem.keys) :
    (replayEntry e).run env w = ⟨.ok (), w.mem, []⟩ := by
  have hrun := run_applyEntry_of_notMem env e hc
  have hexec : (applyEntry e).exec env w = w := Prog.exec_of_run hrun
  rw [replayEntry, Prog.run_tryCatch, hexec, hrun]
  rfl

/-- Replaying an entry, whole or interrupted. -/
theorem replayEntry_turn (env : Env) (e : WALEntry) (h : Open reg wal w T) :
    (replayEntry e).value env w = .ok () ∧
      Open reg wal ((replayEntry e).exec env w) (replayStep reg T e) ∧
      ∀ k, Holds reg wal T ((replayEntry e).crashAt env w k) ∨
        Holds reg wal (replayStep reg T e) ((replayEntry e).crashAt env w k) := by
  rcases Decidable.em (e.collection ∈ reg.keys) with hc | hc
  · rw [Prog.value, Prog.exec, replayStep, if_pos hc]
    simp only [Prog.crashAt, run_replayEntry_of_mem h hc]
    exact applyEntry_turn env e h hc
  · have hrun : (replayEntry e).run env w = ⟨.ok (), w.mem, []⟩ :=
      run_replayEntry_of_notMem (h.keys ▸ hc)
    rw [Prog.value, Prog.exec, replayStep, if_neg hc]
    simp only [Prog.crashAt, hrun, List.take_nil, applyAll_nil]
    exact ⟨trivial, h, fun _ => Or.inl h.holds⟩

/-- **A replay of entries**, whole or interrupted. -/
theorem replayEntries_spec (env : Env) (entries : List WALEntry) (h : Open reg wal w T) :
    (entries.forM replayEntry).value env w = .ok () ∧
      Open reg wal ((entries.forM replayEntry).exec env w) (entries.foldl (replayStep reg) T) ∧
      ∀ k, ∃ p, p <+: entries ∧
        Holds reg wal (p.foldl (replayStep reg) T)
          ((entries.forM replayEntry).crashAt env w k) := by
  have hrun : (entries.forM replayEntry).value env w = .ok () ∧
      Open reg wal ((entries.forM replayEntry).exec env w) (entries.foldl (replayStep reg) T) :=
    Prog.forM_simulation (Open reg wal) h
      fun e _ w T hw => ⟨(replayEntry_turn env e hw).1, (replayEntry_turn env e hw).2.1⟩
  exact ⟨hrun.1, hrun.2, Prog.forM_crash (Open reg wal) (fun d T => Holds reg wal T d)
    (fun _ _ hw => hw.holds) h fun e _ w T hw => replayEntry_turn env e hw⟩

/-- **The loop of a commit**, whole or interrupted. -/
theorem applyEntries_spec (env : Env) (entries : List WALEntry) (h : Open reg wal w T)
    (hreg : ∀ e ∈ entries, e.collection ∈ reg.keys) :
    (entries.forM applyEntry).value env w = .ok () ∧
      Open reg wal ((entries.forM applyEntry).exec env w) (entries.foldl entryTableStep T) ∧
      ∀ k, ∃ p, p <+: entries ∧
        Holds reg wal (p.foldl entryTableStep T) ((entries.forM applyEntry).crashAt env w k) := by
  have hturn := fun e (he : e ∈ entries) w T (hw : Open reg wal w T) =>
    applyEntry_turn env e hw (hreg e he)
  have hrun : (entries.forM applyEntry).value env w = .ok () ∧
      Open reg wal ((entries.forM applyEntry).exec env w) (entries.foldl entryTableStep T) :=
    Prog.forM_simulation (Open reg wal) h
      fun e he w T hw => ⟨(hturn e he w T hw).1, (hturn e he w T hw).2.1⟩
  exact ⟨hrun.1, hrun.2, Prog.forM_crash (Open reg wal) (fun d T => Holds reg wal T d)
    (fun _ _ hw => hw.holds) h hturn⟩

/-! ### One log -/

/-- The removal of a log is the last write of a commit and of a replay. -/
theorem crashAt_delete (env : Env) (file : String) (h : Holds reg wal T w.disk) (k : ℕ) :
    Holds reg wal T ((WAL.delete file : EngineM Unit).crashAt env w k) ∨
      Holds reg (wal.erase file) T ((WAL.delete file : EngineM Unit).crashAt env w k) := by
  cases k with
  | zero => exact Or.inl h
  | succ k =>
      right
      show Holds reg (wal.erase file) T (applyAll w.disk ([.unlinkWal file].take (k + 1)))
      rw [List.take_succ_cons, List.take_nil]
      exact h.unlinkWal file

/-- A loop over the entries of a log, and then the removal of the log. -/
theorem loop_then_delete {loop : EngineM Unit} {step : (String → Table) → WALEntry → String → Table}
    {entries : List WALEntry} (file : String)
    (hloop : loop.value env w = .ok () ∧
      Open reg wal (loop.exec env w) (entries.foldl step T) ∧
      ∀ k, ∃ p, p <+: entries ∧ Holds reg wal (p.foldl step T) (loop.crashAt env w k)) :
    (loop >>= fun _ => WAL.delete file).value env w = .ok () ∧
      Open reg (wal.erase file) ((loop >>= fun _ => WAL.delete file).exec env w)
        (entries.foldl step T) ∧
      ∀ k, (∃ p, p <+: entries ∧
          Holds reg wal (p.foldl step T) ((loop >>= fun _ => WAL.delete file).crashAt env w k)) ∨
        Holds reg (wal.erase file) (entries.foldl step T)
          ((loop >>= fun _ => WAL.delete file).crashAt env w k) := by
  obtain ⟨hok, hopen, hcrash⟩ := hloop
  refine ⟨Prog.value_bind_ok hok, ?_, fun k => ?_⟩
  · rw [Prog.exec_bind_ok hok]
    exact ⟨hopen.catalog, hopen.holds.unlinkWal file⟩
  · rw [Prog.crashAt_bind_ok hok]
    split
    · exact Or.inl (hcrash k)
    · rcases crashAt_delete env file hopen.holds _ with hbefore | hafter
      · exact Or.inl ⟨entries, List.prefix_rfl, hbefore⟩
      · exact Or.inr hafter

/-- The recovery of a readable log replays its deduplicated entries. -/
theorem run_recoverFile (env : Env) {file : String} {entries : List WALEntry}
    (hlog : w.disk.wal.get? file = some (entries.map .entry)) :
    (recoverFile file).run env w =
      ((WAL.dedup entries).forM replayEntry >>= fun _ => WAL.delete file).run env w := by
  have hread : (WAL.readEntries file : EngineM _).run env w =
      ⟨.ok (WAL.dedup entries), w.mem, []⟩ := WAL.run_readEntries hlog
  have hsome : (some <$> (WAL.readEntries file : EngineM _)).run env w =
      ⟨.ok (some (WAL.dedup entries)), w.mem, []⟩ := Prog.run_bind_read hread
  refine Prog.run_bind_read (a := some (WAL.dedup entries)) ?_
  rw [Prog.run_tryCatch, hsome]

/-- **Recovering one log**, whole or interrupted. -/
theorem recoverFile_spec (env : Env) {file : String} {entries : List WALEntry}
    (h : Open reg wal w T) (hlog : wal.get? file = some (entries.map .entry)) :
    (recoverFile file).value env w = .ok () ∧
      Open reg (wal.erase file) ((recoverFile file).exec env w)
        ((WAL.dedup entries).foldl (replayStep reg) T) ∧
      ∀ k, (∃ p, p <+: WAL.dedup entries ∧
          Holds reg wal (p.foldl (replayStep reg) T) ((recoverFile file).crashAt env w k)) ∨
        Holds reg (wal.erase file) ((WAL.dedup entries).foldl (replayStep reg) T)
          ((recoverFile file).crashAt env w k) := by
  have hrun := run_recoverFile env (h.holds.wal ▸ hlog)
  rw [Prog.value, Prog.exec]
  simp only [Prog.crashAt, hrun]
  exact loop_then_delete file (replayEntries_spec env (WAL.dedup entries) h)

/-! ### The manifest -/

/-- The indexes of a collection as opening finds them if their files are text: read
from the files, or rebuilt if one of them is missing. -/
def openedIndexes (env : Env) (disk : Disk) (name : String) (specs : List IndexSpec) :
    IndexManager :=
  let im := (IndexManager.new name specs).loaded env disk
  if specs.any fun spec => (disk.idx (IndexManager.idxPath name spec)).isNone
  then im.rebuild (DocumentStore.rows (tables disk name)) else im

theorem specs_openedIndexes (env : Env) (disk : Disk) (name : String) (specs : List IndexSpec) :
    (openedIndexes env disk name specs).specs = specs := by
  have hload : ((IndexManager.new name specs).loaded env disk).specs = specs := by
    rw [IndexManager.specs_loaded, IndexManager.specs_new]
  rw [openedIndexes]
  split
  · rw [IndexManager.specs_rebuild, hload]
  · exact hload

/-- New indexes are loaded from files that are text. -/
theorem loadFrom_new (env : Env) {name : String} {specs : List IndexSpec}
    (h : IndexManager.Readable d name specs) :
    (IndexManager.new name specs).loadFrom env d =
      .ok ((IndexManager.new name specs).loaded env d) := by
  refine IndexManager.loadFrom_of_readable ?_ env
  rw [IndexManager.specs_new]
  exact h

/-- **Loading one collection** whose file is there, from index files that are text. -/
theorem run_loadCollection (env : Env) {name : String} {specs : List IndexSpec}
    (hfile : (w.disk.jsonl (jsonlPath name)).isSome)
    (htext : IndexManager.Readable w.disk name specs) :
    (loadCollection name specs).run env w =
      ⟨.ok (), w.mem.set name (openedIndexes env w.disk name specs),
        if specs.any fun spec => (w.disk.idx (IndexManager.idxPath name spec)).isNone
        then (openedIndexes env w.disk name specs).saveWrites else []⟩ := by
  obtain ⟨lines, hl⟩ := Option.isSome_iff_exists.mp hfile
  rw [loadCollection, Prog.run_bind_read (Prog.run_env env w),
    Prog.run_bind_read (Prog.run_getDisk env w), loadFrom_new env htext, openedIndexes,
    tables_of_lines hl]
  dsimp only
  split
  · rw [Prog.run_bind_read (DocumentStore.run_scan hl),
      Prog.run_bind_ok (Prog.run_writeAll _ env w)]
    simp [Outcome.after]
  · rfl

/-- Loading one collection, whole or interrupted: the catalog gains its entry,
and only index files are written. -/
theorem loadCollection_turn (env : Env) {name : String} {specs : List IndexSpec}
    (hfile : (w.disk.jsonl (jsonlPath name)).isSome)
    (htext : IndexManager.Readable w.disk name specs) :
    (loadCollection name specs).value env w = .ok () ∧
      catalog ((loadCollection name specs).exec env w).mem = (catalog w.mem).set name specs ∧
      w.disk.SameData ((loadCollection name specs).exec env w).disk ∧
      ∀ k, w.disk.SameData ((loadCollection name specs).crashAt env w k) := by
  have hrun := run_loadCollection env hfile htext
  have hindex : ∀ dw ∈ ((loadCollection name specs).run env w).writes, dw.isIndex = true := by
    intro dw hdw
    rw [hrun] at hdw
    split at hdw
    · exact IndexManager.isIndex_saveWrites _ dw hdw
    · cases hdw
  refine ⟨congrArg Outcome.result hrun, ?_, Disk.sameData_applyAll hindex _, fun k => ?_⟩
  · rw [Prog.exec, hrun]
    show catalog (w.mem.set name _) = _
    rw [catalog, OrdDict.mapValues_set, specs_openedIndexes]
    rfl
  · exact Disk.sameData_applyAll (fun dw hdw => hindex dw (List.mem_of_mem_take hdw)) _

theorem run_loadManifest (env : Env) (h : d.Registers reg) :
    loadManifest.run env ⟨OrdDict.empty, d⟩ =
      (reg.entries.forM fun e => loadCollection e.1 e.2).run env ⟨OrdDict.empty, d⟩ := by
  rw [loadManifest, Prog.run_bind_read (Prog.run_getDisk env _)]
  rcases h with hmanifest | ⟨hnone, rfl⟩
  · simp only [hmanifest]
  · simp only [hnone]
    rfl

/-- **Loading the manifest**, whole or interrupted: the registry is as saved,
and only index files are written. -/
theorem loadManifest_spec (env : Env) (h : Holds reg wal T d) :
    loadManifest.value env ⟨OrdDict.empty, d⟩ = .ok () ∧
      Open reg wal (loadManifest.exec env ⟨OrdDict.empty, d⟩) T ∧
      ∀ k, Holds reg wal T (loadManifest.crashAt env ⟨OrdDict.empty, d⟩ k) := by
  have hrun := run_loadManifest env h.manifest
  -- a turn registers its collection and writes index files only
  have hturn : ∀ e ∈ reg.entries, ∀ (w : Database) (s : Catalog),
      (d.SameData w.disk ∧ catalog w.mem = s) →
      (loadCollection e.1 e.2).value env w = .ok () ∧
        (d.SameData ((loadCollection e.1 e.2).exec env w).disk ∧
          catalog ((loadCollection e.1 e.2).exec env w).mem = s.set e.1 e.2) ∧
        ∀ k, d.SameData ((loadCollection e.1 e.2).crashAt env w k) ∨
          d.SameData ((loadCollection e.1 e.2).crashAt env w k) := by
    rintro e he w s ⟨hsame, rfl⟩
    have hfile : (w.disk.jsonl (jsonlPath e.1)).isSome := by
      rw [hsame.jsonl]
      exact h.files e.1 (List.mem_map_of_mem he)
    obtain ⟨hok, hcat, hsame', hcrash⟩ :=
      loadCollection_turn env hfile ((h.text e he).keep hsame.text)
    exact ⟨hok, ⟨hsame.trans hsame', hcat⟩, fun k => Or.inl (hsame.trans (hcrash k))⟩
  have h0 : d.SameData (⟨OrdDict.empty, d⟩ : Database).disk ∧
      catalog (⟨OrdDict.empty, d⟩ : Database).mem = OrdDict.empty := ⟨.refl d, rfl⟩
  have hloop : (reg.entries.forM fun e => loadCollection e.1 e.2).value env ⟨OrdDict.empty, d⟩ =
        .ok () ∧
      (d.SameData ((reg.entries.forM fun e => loadCollection e.1 e.2).exec env
          ⟨OrdDict.empty, d⟩).disk ∧
        catalog ((reg.entries.forM fun e => loadCollection e.1 e.2).exec env
          ⟨OrdDict.empty, d⟩).mem = reg.entries.foldl (fun s e => s.set e.1 e.2) OrdDict.empty) :=
    Prog.forM_simulation (fun w s => d.SameData w.disk ∧ catalog w.mem = s) h0
      fun e he w s hw => ⟨(hturn e he w s hw).1, (hturn e he w s hw).2.1⟩
  obtain ⟨hok, hsame, hcat⟩ := hloop
  rw [Prog.value, Prog.exec]
  simp only [Prog.crashAt, hrun]
  refine ⟨hok, ⟨?_, h.sameData hsame⟩, fun k => ?_⟩
  -- registering the entries in their order gives the saved registry
  · exact hcat.trans (OrdDict.ext_entries (OrdDict.entries_ofList_of_nodup reg.nodup))
  · obtain ⟨-, -, hd⟩ := Prog.forM_crash (fun w s => d.SameData w.disk ∧ catalog w.mem = s)
      (fun d' _ => d.SameData d') (fun _ _ hw => hw.1) h0 hturn k
    exact h.sameData hd

/-! ### One transaction -/

/-- Buffer operations one after another. -/
def Transaction.bufferAll (file : String) (ops : List WriteOp) : EngineM Unit :=
  ops.forM (Transaction.buffer file)

/-- The logs of a directory where one transaction has buffered `ops`. -/
def oneLog (file : String) (ops : List WriteOp) : OrdDict String (List WalLine) :=
  if ops = [] then OrdDict.empty else OrdDict.empty.set file (logOf ops)

theorem get?_oneLog {file : String} {ops : List WriteOp} (h : ops ≠ []) :
    (oneLog file ops).get? file = some (logOf ops) := by
  rw [oneLog, if_neg h, OrdDict.get?_set_self]

theorem erase_oneLog (file : String) (ops : List WriteOp) :
    (oneLog file ops).erase file = OrdDict.empty := by
  rw [oneLog]
  split
  · rfl
  · rw [OrdDict.erase_set]
    rfl

theorem oneLog_concat (file : String) (ops : List WriteOp) (op : WriteOp) :
    (oneLog file ops).set file
        (((oneLog file ops).get? file).getD [] ++ [.entry op.entry.viaJson]) =
      oneLog file (ops ++ [op]) := by
  rcases eq_or_ne ops [] with rfl | h
  · rfl
  · rw [get?_oneLog h, oneLog, if_neg h, OrdDict.set_set, oneLog, if_neg (by simp)]
    simp [logOf]

theorem run_bufferAll (file : String) (ops : List WriteOp) (env : Env) (w : Database) :
    (Transaction.bufferAll file ops).run env w =
      ⟨.ok (), w.mem, ops.map fun op => .appendWal file (.entry op.entry.viaJson)⟩ := by
  induction ops generalizing w with
  | nil => rfl
  | cons op ops ih =>
      have hone : (Transaction.buffer file op).run env w =
          ⟨.ok (), w.mem, [.appendWal file (.entry op.entry.viaJson)]⟩ := rfl
      show (Transaction.buffer file op >>= fun _ => Transaction.bufferAll file ops).run env w = _
      rw [Prog.run_bind_ok hone, ih]
      rfl

/-- The first operations have reached the log. -/
theorem Holds.bufferAll (h : Holds reg OrdDict.empty T d) (file : String) (ops : List WriteOp) :
    Holds reg (oneLog file ops) T
      (applyAll d (ops.map fun op => DiskWrite.appendWal file (.entry op.entry.viaJson))) := by
  induction ops using List.reverseRecOn with
  | nil => exact h
  | append_singleton ops op ih =>
      rw [List.map_append, applyAll_append, ← oneLog_concat]
      exact ih.appendWal file (.entry op.entry.viaJson)

theorem run_recoverWal_nil (env : Env) (h : w.disk.wal = OrdDict.empty) :
    recoverWal.run env w = ⟨.ok (), w.mem, []⟩ := by
  rw [recoverWal, Prog.run_bind_read (Prog.run_env env w),
    Prog.run_bind_read (Prog.run_getDisk env w), WAL.findWalFiles, h]
  rfl

theorem run_recoverWal_one (env : Env) {file : String} {ops : List WriteOp} (hne : ops ≠ [])
    (h : w.disk.wal = oneLog file ops) : recoverWal.run env w = (recoverFile file).run env w := by
  have hkeys : (oneLog file ops).keys = [file] := by
    rw [oneLog, if_neg hne]
    rfl
  rw [recoverWal, Prog.run_bind_read (Prog.run_env env w),
    Prog.run_bind_read (Prog.run_getDisk env w), WAL.findWalFiles, h, hkeys,
    List.insertionSort_cons, List.insertionSort_nil, List.orderedInsert_nil,
    Prog.run_forM_singleton]

/-- **Recovery with the log of one transaction**, or with none, whole or
interrupted. -/
theorem recoverWal_spec (env : Env) (file : String) (ops : List WriteOp)
    (h : Open reg (oneLog file ops) w T) :
    recoverWal.value env w = .ok () ∧
      Open reg OrdDict.empty (recoverWal.exec env w)
        ((WAL.dedup (walEntries ops)).foldl (replayStep reg) T) ∧
      ∀ k, (∃ p, p <+: WAL.dedup (walEntries ops) ∧
          Holds reg (oneLog file ops) (p.foldl (replayStep reg) T) (recoverWal.crashAt env w k)) ∨
        Holds reg OrdDict.empty ((WAL.dedup (walEntries ops)).foldl (replayStep reg) T)
          (recoverWal.crashAt env w k) := by
  rw [Prog.value, Prog.exec]
  rcases eq_or_ne ops [] with rfl | hne
  · simp only [Prog.crashAt, run_recoverWal_nil env h.holds.wal, List.take_nil]
    exact ⟨trivial, h, fun _ => Or.inr h.holds⟩
  · have hfile := recoverFile_spec env h ((get?_oneLog hne).trans (congrArg some (logOf_eq ops)))
    rw [erase_oneLog] at hfile
    simp only [Prog.crashAt, run_recoverWal_one env hne h.holds.wal]
    exact hfile

/-- **Opening a directory with the log of one transaction**, or with none, whole
or interrupted. -/
theorem init_spec (env : Env) (file : String) (ops : List WriteOp)
    (h : Holds reg (oneLog file ops) T d) :
    init.value env ⟨OrdDict.empty, d⟩ = .ok () ∧
      Open reg OrdDict.empty (init.exec env ⟨OrdDict.empty, d⟩)
        ((WAL.dedup (walEntries ops)).foldl (replayStep reg) T) ∧
      ∀ k, (∃ p, p <+: WAL.dedup (walEntries ops) ∧
          Holds reg (oneLog file ops) (p.foldl (replayStep reg) T)
            (init.crashAt env ⟨OrdDict.empty, d⟩ k)) ∨
        Holds reg OrdDict.empty ((WAL.dedup (walEntries ops)).foldl (replayStep reg) T)
          (init.crashAt env ⟨OrdDict.empty, d⟩ k) := by
  obtain ⟨hok, hopen, hcrash⟩ := loadManifest_spec env h
  obtain ⟨hrok, hropen, hrcrash⟩ := recoverWal_spec env file ops hopen
  refine ⟨(Prog.value_bind_ok hok).trans hrok, ?_, fun k => ?_⟩
  · rw [init, Prog.exec_bind_ok hok]
    exact hropen
  · rw [init, Prog.crashAt_bind_ok hok]
    split
    · exact Or.inl ⟨[], List.nil_prefix, hcrash k⟩
    · exact hrcrash _

end JsonpySql
