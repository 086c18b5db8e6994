/-
JsonpySql/Reopening.lean

Opening a directory again gives back the engine that left it.

`Saved w` says that everything an engine has in memory is on disk: the manifest
is the registry, every collection has its file, and every index file holds its
index.  Each call that returns keeps it, where the index files of different
indexes are different files (`Call.keeps_saved`); and an engine newly opened on
such a directory without logs has the same memory and writes nothing
(`Saved.run_init`).
-/
import Mathlib.Data.List.Flatten
import JsonpySql.Collections
import JsonpySql.FailedCommit
import JsonpySql.Loading

namespace JsonpySql

open StorageEngine

/-! ### All is saved -/

/-- The memory of an engine is on disk. -/
structure Saved (w : Database) : Prop where
  serving : Serving w
  manifest : w.disk.Registers (catalog w.mem)
  named : ∀ c im, w.mem.get? c = some im → im.collection = c
  indexes : ∀ c im, w.mem.get? c = some im → im.SavedIn w.disk
  distinct : DistinctFiles (catalog w.mem)

/-- Only documents and logs differ, and no file of documents is gone. -/
structure DataOnly (d d' : Disk) : Prop where
  idx : d'.idx = d.idx
  ridx : d'.ridx = d.ridx
  manifest : d'.manifest = d.manifest
  files : ∀ file, (d.jsonl file).isSome → (d'.jsonl file).isSome

variable {env : Env} {w : Database} {c : String} {im im' : IndexManager} {d : Disk}

theorem DataOnly.refl (d : Disk) : DataOnly d d := ⟨rfl, rfl, rfl, fun _ h => h⟩

theorem DataWrite.dataOnly {dw : DiskWrite} {t' : Table} (h : DataWrite d c dw t') :
    DataOnly d (d.write dw) := by
  obtain ⟨-, hman, hfiles⟩ := h.frame
  refine ⟨?_, ?_, hman, hfiles⟩ <;> cases h <;> rfl

/-- A save of the indexes of collection `c`, new or changed, leaves every
collection saved, if the indexes have files of their own. -/
theorem savedIn_after_save {mem : Registry}
    (hothers : ∀ c' im₁, c' ≠ c → mem.get? c' = some im₁ → im₁.collection = c' ∧ im₁.SavedIn d)
    (hname : im'.collection = c) (hdistinct : DistinctFiles (catalog (mem.set c im'))) :
    ∀ c' im₁, (mem.set c im').get? c' = some im₁ →
      im₁.collection = c' ∧ im₁.SavedIn (applyAll d im'.saveWrites) := by
  have hget : ∀ c' im₁, (mem.set c im').get? c' = some im₁ →
      (catalog (mem.set c im')).get? c' = some im₁.specs := fun c' im₁ h₁ =>
    get?_catalog (w := ⟨mem.set c im', d⟩) h₁
  intro c' im₁ h₁
  rcases eq_or_ne c' c with rfl | hne
  · obtain rfl : im' = im₁ := by
      rw [OrdDict.get?_set_self] at h₁
      exact Option.some.inj h₁
    refine ⟨hname, im'.savedIn_saveWrites ?_ d⟩
    rw [hname]
    exact hdistinct.nodup (hget c' im' h₁)
  · -- the files of another collection are other files
    have hold := h₁
    rw [OrdDict.get?_set_of_ne _ _ hne] at hold
    obtain ⟨hname₁, hsaved⟩ := hothers c' im₁ hne hold
    refine ⟨hname₁, hsaved.congr (fun path hpath => ?_) ?_⟩
    · apply IndexManager.idx_saveWrites_of_notMem
      rw [hname₁] at hpath
      rw [hname]
      exact hdistinct.separate.notMem hne (hget c' im₁ h₁)
        (hget c im' (OrdDict.get?_set_self _ _ _)) path hpath
    · apply IndexManager.ridx_saveWrites_of_ne
      rw [hname₁, hname]
      exact hne

namespace Saved

theorem dataOnly (h : Saved w) (hd : DataOnly w.disk d) : Saved ⟨w.mem, d⟩ where
  serving c hc := hd.files _ (h.serving c hc)
  manifest := h.manifest.congr hd.manifest
  named := h.named
  indexes c im him := (h.indexes c im him).congr (fun _ _ => congrFun hd.idx _)
    (congrFun hd.ridx _)
  distinct := h.distinct

/-- Saving changed indexes of a collection. -/
theorem save (h : Saved w) (him : w.mem.get? c = some im) (hspecs : im'.specs = im.specs)
    (hcollection : im'.collection = im.collection) :
    Saved ⟨w.mem.set c im', applyAll w.disk im'.saveWrites⟩ := by
  have hsame := im'.sameData_saveWrites w.disk
  have hc : c ∈ w.mem.keys := OrdDict.mem_keys_of_get? him
  have hdistinct : DistinctFiles (catalog (w.mem.set c im')) := by
    rw [catalog_set him hspecs]
    exact h.distinct
  have hsaved := savedIn_after_save (fun c' im₁ _ h₁ => ⟨h.named c' im₁ h₁, h.indexes c' im₁ h₁⟩)
    (hcollection.trans (h.named c im him)) hdistinct
  refine ⟨fun c' hc' => ?_, ?_, fun c' im₁ h₁ => (hsaved c' im₁ h₁).1,
    fun c' im₁ h₁ => (hsaved c' im₁ h₁).2, hdistinct⟩
  · rw [OrdDict.keys_set_of_mem _ hc] at hc'
    rw [hsame.jsonl]
    exact h.serving c' hc'
  · rw [catalog_set him hspecs]
    exact h.manifest.congr hsame.manifest

/-- A write to the documents, and then a save of changed indexes. -/
theorem write_save (h : Saved w) (him : w.mem.get? c = some im) (hspecs : im'.specs = im.specs)
    (hcollection : im'.collection = im.collection) {dw : DiskWrite} {t' : Table}
    (hdw : DataWrite w.disk c dw t') {p : EngineM Unit}
    (hrun : p.run env w = ⟨.ok (), w.mem.set c im', dw :: im'.saveWrites⟩) :
    Saved (p.exec env w) := by
  have hwrite : Saved ⟨w.mem, w.disk.write dw⟩ := h.dataOnly hdw.dataOnly
  rw [Prog.exec, hrun]
  exact hwrite.save him hspecs hcollection

/-! ### Opening -/

/-- Saved indexes are text. -/
theorem readable (h : Saved w) :
    ∀ e ∈ (catalog w.mem).entries, IndexManager.Readable w.disk e.1 e.2 := by
  rintro ⟨c, specs⟩ he
  obtain ⟨im, him, rfl⟩ := exists_of_catalog (OrdDict.mem_entries_iff.mp he)
  have hname := h.named c im him
  show IndexManager.Readable w.disk c im.specs
  exact hname ▸ (h.indexes c im him).readable

/-- **Opening a directory that holds an engine's memory**, without logs, gives
this memory and writes nothing. -/
theorem run_init (h : Saved w) (env : Env) (hlogs : w.disk.wal = OrdDict.empty) :
    init.run env ⟨OrdDict.empty, w.disk⟩ = ⟨.ok (), w.mem, []⟩ := by
  have hholds : Holds (catalog w.mem) OrdDict.empty (tables w.disk) w.disk :=
    ⟨h.manifest, fun c hc => h.serving c (keys_catalog w.mem ▸ hc), hlogs, rfl, h.readable⟩
  -- every collection is read back as it was, and none is rebuilt
  have hsaved : ∀ e ∈ w.mem.entries, e.2.SavedIn w.disk ∧ e.2.collection = e.1 := fun e he =>
    ⟨h.indexes e.1 e.2 (OrdDict.mem_entries_iff.mp he),
      h.named e.1 e.2 (OrdDict.mem_entries_iff.mp he)⟩
  have hmem : openedRegistry env w.disk (catalog w.mem) = w.mem := by
    refine OrdDict.ext_entries ?_
    rw [entries_openedRegistry, catalog, OrdDict.mapValues, List.map_map]
    refine (List.map_congr_left fun e he => ?_).trans (List.map_id _)
    obtain ⟨hidx, hname⟩ := hsaved e he
    have hopened := hidx.openedIndexes env
    rw [hname] at hopened
    exact congrArg (Prod.mk e.1) hopened
  have hwrites : loadWrites env w.disk (catalog w.mem).entries = [] := by
    refine List.flatMap_eq_nil_iff.mpr fun e he => ?_
    obtain ⟨e₀, he₀, rfl⟩ := List.mem_map.mp he
    obtain ⟨hidx, hname⟩ := hsaved e₀ he₀
    have hpresent := hidx.not_missing
    rw [hname] at hpresent
    exact if_neg hpresent
  rw [JsonpySql.run_init env hholds h.distinct.separate, hmem, hwrites]

end Saved

/-! ### Calls -/

/-- A call of a client. -/
inductive Call
  | createCollection (name : String) (specs : List IndexSpec) (dropIfExists : Bool)
  | dropCollection (name : String)
  | event (e : Event)
  | addReverse (collection parentId childId : String)
  | removeReverse (collection parentId childId : String)

/-- The call. -/
def Call.perform : Call → EngineM Unit
  | .createCollection name specs dropIfExists =>
      StorageEngine.createCollection name specs dropIfExists
  | .dropCollection name => StorageEngine.dropCollection name
  | .event e => e.play
  | .addReverse c parentId childId => indexes c (IndexManager.addReverse parentId childId)
  | .removeReverse c parentId childId => indexes c (IndexManager.removeReverse parentId childId)

/-- An operation that returned found its collection registered and its lock
free. -/
theorem perform_of_ok (op : EngineOp) (hw : Serving w)
    (hok : op.perform.value env w = .ok ()) :
    ∃ im dw t', w.mem.get? op.collection = some im ∧ DataWrite w.disk op.collection dw t' ∧
      op.perform.run env w =
        ⟨.ok (), w.mem.set op.collection (op.newIndexes (tables w.disk op.collection) im),
          dw :: (op.newIndexes (tables w.disk op.collection) im).saveWrites⟩ := by
  have hc : op.collection ∈ w.mem.keys := by
    refine Decidable.byContradiction fun hnot => ?_
    rw [perform_of_notMem op hnot] at hok
    cases hok
  obtain ⟨im, him⟩ := OrdDict.exists_get?_of_mem hc
  rcases hheld : LockManager.blocked env (jsonlPath op.collection) .exclusive with _ | _
  · cases op with
    | write op => exact ⟨im, _, _, him, .append op.docId_line, run_direct op hw him hheld⟩
    | compact c => exact ⟨im, _, _, him, .replace _, run_compact hw him hheld⟩
  · rw [Prog.value, run_perform_of_blocked op hw hc hheld] at hok
    cases hok

/-- An entry that was applied found its collection registered. -/
theorem applyEntry_of_ok {e : WALEntry} (hok : (applyEntry e).value env w = .ok ()) :
    ∃ im, w.mem.get? e.collection = some im := by
  refine OrdDict.exists_get?_of_mem (Decidable.byContradiction fun hnot => ?_)
  rw [Prog.value, run_applyEntry_of_notMem env e hnot] at hok
  cases hok

namespace Saved

theorem perform (h : Saved w) (op : EngineOp) (hok : op.perform.value env w = .ok ()) :
    Saved (op.perform.exec env w) := by
  obtain ⟨im, dw, t', him, hdw, hrun⟩ := perform_of_ok op h.serving hok
  exact h.write_save him op.specs_newIndexes op.collection_newIndexes hdw hrun

theorem applyEntry (h : Saved w) (e : WALEntry)
    (hok : (StorageEngine.applyEntry e).value env w = .ok ()) :
    Saved ((StorageEngine.applyEntry e).exec env w) := by
  obtain ⟨im, him⟩ := applyEntry_of_ok hok
  exact h.write_save him e.specs_newIndexes e.collection_newIndexes (.append e.docId_line)
    (run_applyEntry env e h.serving him)

theorem commit (h : Saved w) (file : String)
    (hok : (Transaction.commit file).value env w = .ok ()) :
    Saved ((Transaction.commit file).exec env w) := by
  obtain ⟨entries, hread, hrest⟩ := Prog.value_bind_eq_ok.mp hok
  rw [(WAL.readOnly_readEntries file).exec_eq] at hrest
  obtain ⟨_, hloop, -⟩ := Prog.value_bind_eq_ok.mp hrest
  have happlied : Saved ((entries.forM StorageEngine.applyEntry).exec env w) :=
    Prog.forM_keeps h (fun e _ w hw => hw.applyEntry e) hloop
  rw [Transaction.commit, Prog.exec_bind_ok hread, (WAL.readOnly_readEntries file).exec_eq,
    Prog.exec_bind_ok hloop]
  -- removing the log touches no index file
  exact happlied.dataOnly ⟨rfl, rfl, rfl, fun _ h => h⟩

theorem play (h : Saved w) (e : Event) (hok : e.play.value env w = .ok ()) :
    Saved (e.play.exec env w) := by
  cases e with
  | engine op => exact h.perform op hok
  | begin => exact h
  | buffer file op => exact h.dataOnly ⟨rfl, rfl, rfl, fun _ h => h⟩
  | commit file => exact h.commit file hok
  | rollback file => exact h.dataOnly ⟨rfl, rfl, rfl, fun _ h => h⟩

/-- A change of the reverse index of a collection. -/
theorem editReverse (h : Saved w) {edit : StoreM IndexManager Unit}
    (hedit : ∀ im disk, ∃ im', im'.specs = im.specs ∧ im'.collection = im.collection ∧
      edit.run env ⟨im, disk⟩ = ⟨.ok (), im', im'.saveWrites⟩)
    (hok : (StorageEngine.indexes c edit).value env w = .ok ()) :
    Saved ((StorageEngine.indexes c edit).exec env w) := by
  rcases him : w.mem.get? c with _ | im
  · have hmissing : (StorageEngine.indexes c edit).value env w = .error (.keyError c) := by
      simp [Prog.value, Prog.run, StorageEngine.indexes, Prog.focus, him]
    rw [hmissing] at hok
    cases hok
  · obtain ⟨im', hspecs, hcollection, hrun⟩ := hedit im w.disk
    rw [Prog.exec, StorageEngine.indexes, Prog.run_focus him hrun]
    exact h.save him hspecs hcollection

/-! ### Creating and dropping -/

theorem registerNew {name : String} {specs : List IndexSpec} (h : Saved w)
    (hok : (registerNew name specs).value env w = .ok ())
    (hdistinct : DistinctFiles (catalog ((StorageEngine.registerNew name specs).exec env w).mem)) :
    Saved ((StorageEngine.registerNew name specs).exec env w) := by
  have hfile : w.disk.jsonl (jsonlPath name) = none := file_of_registerNew hok
  have hcreated : Created w ((StorageEngine.registerNew name specs).exec env w) name specs :=
    created_registerNew hfile
  have htouch : DataOnly w.disk (w.disk.write (.touchJsonl (jsonlPath name))) := by
    refine ⟨rfl, rfl, rfl, fun file hsome => ?_⟩
    rcases eq_or_ne file (jsonlPath name) with rfl | hne
    · simp [Disk.write]
    · simpa [Disk.write, hne] using hsome
  have hexec : (StorageEngine.registerNew name specs).exec env w =
      ⟨w.mem.set name (IndexManager.new name specs),
        (applyAll (w.disk.write (.touchJsonl (jsonlPath name)))
          (IndexManager.new name specs).saveWrites).write (.replaceManifest (.payload
            ((w.mem.set name (IndexManager.new name specs)).mapValues IndexManager.specs)))⟩ := by
    rw [Prog.exec, run_registerNew env specs hfile, applyAll_cons, applyAll_append]
    rfl
  have hwrite := h.dataOnly htouch
  have hmem : ((StorageEngine.registerNew name specs).exec env w).mem =
      w.mem.set name (IndexManager.new name specs) := by rw [hexec]
  have hsaved : ∀ c' im₁, (w.mem.set name (IndexManager.new name specs)).get? c' = some im₁ →
      im₁.collection = c' ∧ im₁.SavedIn (applyAll (w.disk.write (.touchJsonl (jsonlPath name)))
        (IndexManager.new name specs).saveWrites) :=
    savedIn_after_save (fun c' im₁ _ h₁ => ⟨hwrite.named c' im₁ h₁, hwrite.indexes c' im₁ h₁⟩)
      rfl (hmem ▸ hdistinct)
  refine ⟨hcreated.serving h.serving, Or.inl hcreated.manifest, fun c' im₁ h₁ => ?_,
    fun c' im₁ h₁ => ?_, hdistinct⟩
  · rw [hmem] at h₁
    exact (hsaved c' im₁ h₁).1
  · rw [hmem] at h₁
    rw [hexec]
    exact (hsaved c' im₁ h₁).2.congr (fun _ _ => rfl) rfl

theorem dropCollection {name : String} (h : Saved w) (hc : name ∈ w.mem.keys) :
    Saved ((StorageEngine.dropCollection name).exec env w) := by
  obtain ⟨im, him⟩ := OrdDict.exists_get?_of_mem hc
  obtain ⟨-, hgone, -, hothers, -⟩ := dropCollection_spec env hc
  have hname : im.collection = name := h.named name im him
  have hexec : (StorageEngine.dropCollection name).exec env w =
      ⟨w.mem.erase name,
        (applyAll (w.disk.write (.unlinkJsonl (jsonlPath name))) im.unlinkWrites).write
          (.replaceManifest (.payload ((w.mem.erase name).mapValues IndexManager.specs)))⟩ := by
    rw [Prog.exec, run_dropCollection env him, applyAll_cons, applyAll_append, OrdDict.erase_set]
    rfl
  have hmem : ((StorageEngine.dropCollection name).exec env w).mem = w.mem.erase name := by
    rw [hexec]
  have hleft : ∀ c' im₁, ((StorageEngine.dropCollection name).exec env w).mem.get? c' = some im₁ →
      c' ≠ name ∧ w.mem.get? c' = some im₁ := by
    intro c' im₁ h₁
    rw [hmem, OrdDict.get?_erase] at h₁
    split at h₁
    · cases h₁
    · next hne => exact ⟨hne, h₁⟩
  refine ⟨fun c' hc' => ?_, Or.inl ?_, fun c' im₁ h₁ => ?_, fun c' im₁ h₁ => ?_, ?_⟩
  · obtain ⟨im₁, h₁⟩ := OrdDict.exists_get?_of_mem hc'
    obtain ⟨hne, hold⟩ := hleft c' im₁ h₁
    rw [(hothers c' hne).2]
    exact h.serving c' (OrdDict.mem_keys_of_get? hold)
  · rw [hexec]
    rfl
  · exact h.named c' im₁ (hleft c' im₁ h₁).2
  · -- the files removed are none of theirs
    obtain ⟨hne, hold⟩ := hleft c' im₁ h₁
    have hname₁ := h.named c' im₁ hold
    rw [hexec]
    apply (h.indexes c' im₁ hold).congr
    · intro path hpath
      refine (IndexManager.idx_unlinkWrites_of_notMem ?_ _).trans rfl
      rw [hname₁] at hpath
      rw [hname]
      exact h.distinct.separate.notMem hne (get?_catalog hold) (get?_catalog him) path hpath
    · refine (IndexManager.ridx_unlinkWrites_of_ne ?_ _).trans rfl
      rw [hname₁, hname]
      exact hne
  · rw [hmem]
    have hentries : (catalog (w.mem.erase name)).entries.Sublist (catalog w.mem).entries :=
      List.filter_sublist.map _
    exact h.distinct.sublist (hentries.flatMap _)

theorem createCollection {name : String} {specs : List IndexSpec} {drop : Bool} (h : Saved w)
    (hok : (createCollection name specs drop).value env w = .ok ())
    (hdistinct : DistinctFiles
      (catalog ((StorageEngine.createCollection name specs drop).exec env w).mem)) :
    Saved ((StorageEngine.createCollection name specs drop).exec env w) := by
  have hrun : (StorageEngine.createCollection name specs drop).run env w =
      (if name ∈ w.mem.keys then
        if drop then StorageEngine.dropCollection name >>= fun _ =>
          StorageEngine.registerNew name specs
        else Prog.raise (.collectionExistsError
          ("Collection " ++ strRepr name ++ " already exists. " ++
            "Pass drop_if_exists=True to replace it."))
      else StorageEngine.registerNew name specs).run env w :=
    Prog.run_bind_read (Prog.run_getMem env w)
  rw [Prog.value, hrun] at hok
  rw [Prog.exec, hrun] at hdistinct ⊢
  by_cases hc : name ∈ w.mem.keys
  · rw [if_pos hc] at hok hdistinct ⊢
    cases drop with
    | false => cases hok
    | true =>
        have hbind : (StorageEngine.dropCollection name >>= fun _ =>
          StorageEngine.registerNew name specs).value env w = .ok () := hok
        obtain ⟨hdrop, -⟩ := dropCollection_spec env hc
        have hexec := Prog.exec_bind_ok (f := fun _ => StorageEngine.registerNew name specs) hdrop
        change Saved ((StorageEngine.dropCollection name >>= fun _ =>
          StorageEngine.registerNew name specs).exec env w)
        change DistinctFiles (catalog ((StorageEngine.dropCollection name >>= fun _ =>
          StorageEngine.registerNew name specs).exec env w).mem) at hdistinct
        rw [Prog.value_bind_ok hdrop] at hbind
        rw [hexec] at hdistinct ⊢
        exact (h.dropCollection hc).registerNew hbind hdistinct
  · rw [if_neg hc] at hok hdistinct ⊢
    exact h.registerNew hok hdistinct

end Saved

/-- **Every call that returns keeps all saved**, if the index files are still
different files after it. -/
theorem Call.keeps_saved (call : Call) (h : Saved w) (hok : call.perform.value env w = .ok ())
    (hdistinct : DistinctFiles (catalog (call.perform.exec env w).mem)) :
    Saved (call.perform.exec env w) := by
  cases call with
  | createCollection name specs dropIfExists => exact h.createCollection hok hdistinct
  | dropCollection name =>
      have hc : name ∈ w.mem.keys := by
        obtain ⟨_, hrequire, -⟩ := Prog.value_bind_eq_ok.mp hok
        refine Decidable.byContradiction fun hnot => ?_
        rw [Prog.value, run_require_of_notMem hnot] at hrequire
        cases hrequire
      exact h.dropCollection hc
  | event e => exact h.play e hok
  | addReverse c parentId childId =>
      exact h.editReverse (fun im _ =>
        ⟨{ im with reverse := im.reverse.add parentId childId }, rfl, rfl, rfl⟩) hok
  | removeReverse c parentId childId =>
      exact h.editReverse (fun im _ =>
        ⟨{ im with reverse := im.reverse.remove parentId childId }, rfl, rfl, rfl⟩) hok

/-! ### Runs -/

/-- The database after calls, each in surroundings of its own. -/
def performCalls (calls : List (Env × Call)) (w : Database) : Database :=
  calls.foldl (fun w c => c.2.perform.exec c.1 w) w

/-- Every call returns, and after each the index files of the collections are
different files. -/
def AllReturn : Database → List (Env × Call) → Prop
  | _, [] => True
  | w, (env, call) :: calls =>
      call.perform.value env w = .ok () ∧
        DistinctFiles (catalog (call.perform.exec env w).mem) ∧
        AllReturn (call.perform.exec env w) calls

theorem Saved.performCalls {calls : List (Env × Call)} (h : Saved w) (hall : AllReturn w calls) :
    Saved (performCalls calls w) := by
  induction calls generalizing w with
  | nil => exact h
  | cons c calls ih =>
      obtain ⟨env, call⟩ := c
      obtain ⟨hok, hdistinct, hrest⟩ := hall
      exact ih (call.keeps_saved h hok hdistinct) hrest

theorem emptyDb_saved : Saved emptyDb where
  serving := emptyDb_serving
  manifest := Or.inr ⟨rfl, rfl⟩
  named c im him := by cases him
  indexes c im him := by cases him
  distinct := List.nodup_nil

/-- **Reopening is invisible.**  After any run of calls that all return, on
collections whose index files are different files, and with no transaction left
open, an engine newly opened on the directory has the same collections with the
same specs, and answers every read as the old one does. -/
theorem reopening_invisible (calls : List (Env × Call)) (env : Env)
    (hreturn : AllReturn emptyDb calls)
    (hclosed : (performCalls calls emptyDb).disk.wal = OrdDict.empty) :
    let w := performCalls calls emptyDb
    let w' := reopen env w
    init.value env ⟨OrdDict.empty, w.disk⟩ = .ok () ∧
      catalog w'.mem = catalog w.mem ∧
      ∀ reader : Env, ∀ c,
        (∀ i, (StorageEngine.get c i).value reader w' = (StorageEngine.get c i).value reader w) ∧
        (StorageEngine.scan c).value reader w' = (StorageEngine.scan c).value reader w ∧
        (∀ field v, (StorageEngine.lookup c field v).value reader w' =
          (StorageEngine.lookup c field v).value reader w) ∧
        (∀ field low high, (StorageEngine.rangeScan c field low high).value reader w' =
          (StorageEngine.rangeScan c field low high).value reader w) ∧
        ∀ parentId, (StorageEngine.getChildren c parentId).value reader w' =
          (StorageEngine.getChildren c parentId).value reader w := by
  intro w w'
  have hrun := (emptyDb_saved.performCalls hreturn).run_init env hclosed
  -- the new engine has the memory of the old one, and the directory is as it was
  have hsame : w' = w := by
    show (⟨(init.run env ⟨OrdDict.empty, w.disk⟩).mem,
      applyAll w.disk (init.run env ⟨OrdDict.empty, w.disk⟩).writes⟩ : Database) = w
    rw [hrun]
    rfl
  rw [hsame]
  exact ⟨congrArg Outcome.result hrun, rfl,
    fun reader c => ⟨fun _ => rfl, rfl, fun _ _ => rfl, fun _ _ _ => rfl, fun _ => rfl⟩⟩

/-- Two collections, one with a compound index, a committed and a rolled-back
transaction, and a registered child. -/
theorem reopening_invisible_users :
    let calls : List (Env × Call) := [
      .createCollection "users" [⟨["email"], true⟩, ⟨["email", "age"], false⟩] false,
      .createCollection "orders" [⟨["user"], false⟩] false,
      .event (.engine (.write (.insert "users" "1" (OrdDict.ofList [("email", .str "a\x1fb")])))),
      .event (.buffer "a.wal" (.insert "orders" "7" (OrdDict.ofList [("user", .str "1")]))),
      .event (.buffer "b.wal" (.delete "users" "1")), .event (.rollback "b.wal"),
      .event (.commit "a.wal"), .addReverse "orders" "1" "7",
      .event (.engine (.compact "users")), .dropCollection "orders"].map (onlyClient, ·)
    let w := performCalls calls emptyDb
    (StorageEngine.lookup "users" "email" (.str "a\x1fb")).value onlyClient
        (reopen onlyClient w) =
      (StorageEngine.lookup "users" "email" (.str "a\x1fb")).value onlyClient w := by
  intro calls w
  have hreturn : AllReturn emptyDb calls :=
    ⟨rfl, by decide, rfl, by decide, rfl, by decide, rfl, by decide, rfl, by decide, rfl, by decide,
      rfl, by decide, rfl, by decide, rfl, by decide, rfl, by decide, trivial⟩
  exact ((reopening_invisible calls onlyClient hreturn rfl).2.2 onlyClient "users").2.2.1 _ _

end JsonpySql
