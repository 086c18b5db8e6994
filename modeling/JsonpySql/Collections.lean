/-
JsonpySql/Collections.lean

Creating and dropping collections.

A call that returns has made an empty file and empty indexes (`Created`); the
other collections keep their tables and indexes.  Where the name is taken and
may be replaced, the old collection is dropped first, so `createCollection` is
one or two changes of the registry.
-/
import JsonpySql.Effects

namespace JsonpySql

open StorageEngine

variable {env : Env} {w : Database} {name : String} {specs : List IndexSpec}

/-! ### Runs -/

theorem run_create {file : String} (h : w.disk.jsonl file = none) :
    (DocumentStore.create file : EngineM Unit).run env w = ⟨.ok (), w.mem, [.touchJsonl file]⟩ := by
  simp [DocumentStore.create, Prog.run_bind, Prog.exec, Outcome.after, h]

theorem run_create_of_some {file : String} {lines : List Record}
    (h : w.disk.jsonl file = some lines) :
    (DocumentStore.create file : EngineM Unit).run env w =
      ⟨.error (.storageError ("Document store already exists: " ++ env.path file)), w.mem, []⟩ := by
  simp [DocumentStore.create, Prog.run_bind, Prog.exec, Outcome.after, h]

/-- The registration of a name whose file is not there. -/
theorem run_registerNew (env : Env) (specs : List IndexSpec)
    (h : w.disk.jsonl (jsonlPath name) = none) :
    let im := IndexManager.new name specs
    (registerNew name specs).run env w =
      ⟨.ok (), w.mem.set name im, .touchJsonl (jsonlPath name) :: (im.saveWrites ++
        [.replaceManifest (.payload ((w.mem.set name im).mapValues IndexManager.specs))])⟩ := by
  intro im
  rw [registerNew, Prog.run_bind_ok (run_create h)]
  rfl

/-- The registration of a name whose file is there raises. -/
theorem run_registerNew_of_some {lines : List Record}
    (h : w.disk.jsonl (jsonlPath name) = some lines) :
    (registerNew name specs).run env w = ⟨.error (.storageError
      ("Document store already exists: " ++ env.path (jsonlPath name))), w.mem, []⟩ := by
  rw [registerNew, Prog.run_bind_error (run_create_of_some h)]

/-- **Dropping** a registered collection. -/
theorem run_dropCollection (env : Env) {im : IndexManager} (him : w.mem.get? name = some im) :
    (dropCollection name).run env w =
      ⟨.ok (), (w.mem.set name im).erase name, .unlinkJsonl (jsonlPath name) :: (im.unlinkWrites ++
        [.replaceManifest (.payload
          (((w.mem.set name im).erase name).mapValues IndexManager.specs))])⟩ := by
  have hc : name ∈ w.mem.keys := OrdDict.mem_keys_of_get? him
  have hdestroy : (indexes name IndexManager.destroy).run env
      ⟨w.mem, applyAll w.disk [.unlinkJsonl (jsonlPath name)]⟩ =
      ⟨.ok (), w.mem.set name im, im.unlinkWrites⟩ :=
    Prog.run_focus him rfl
  have hunlink : (DocumentStore.destroy (jsonlPath name) : EngineM Unit).run env w =
      ⟨.ok (), w.mem, [.unlinkJsonl (jsonlPath name)]⟩ := rfl
  rw [dropCollection, Prog.run_bind_read (run_require hc), Prog.run_bind_ok hunlink,
    Prog.run_bind_ok hdestroy]
  rfl

/-! ### What they do -/

/-- What a new collection looks like, and what stays of the rest: every other
name keeps its indexes and its table, and the logs are kept. -/
structure Created (w w' : Database) (name : String) (specs : List IndexSpec) : Prop where
  mem : w'.mem.get? name = some (IndexManager.new name specs)
  jsonl : w'.disk.jsonl (jsonlPath name) = some []
  others : ∀ c ≠ name, w'.mem.get? c = w.mem.get? c ∧
    w'.disk.jsonl (jsonlPath c) = w.disk.jsonl (jsonlPath c)
  wal : w'.disk.wal = w.disk.wal
  manifest : w'.disk.manifest = some (.payload (w'.mem.mapValues IndexManager.specs))

/-- Index writes leave the documents and the logs. -/
theorem disk_after_index {ws : List DiskWrite} (h : ∀ dw ∈ ws, dw.isIndex = true) (d : Disk)
    (content : ManifestFile) :
    (applyAll d (ws ++ [.replaceManifest content])).jsonl = d.jsonl ∧
      (applyAll d (ws ++ [.replaceManifest content])).wal = d.wal ∧
      (applyAll d (ws ++ [.replaceManifest content])).manifest = some content := by
  have hsame := Disk.sameData_applyAll h d
  rw [applyAll_append]
  exact ⟨hsame.jsonl, hsame.wal, rfl⟩

/-- What has touched nothing but the name may come first. -/
theorem Created.of_others {w₁ w' : Database} (h : Created w₁ w' name specs)
    (hothers : ∀ c ≠ name, w₁.mem.get? c = w.mem.get? c ∧
      w₁.disk.jsonl (jsonlPath c) = w.disk.jsonl (jsonlPath c))
    (hwal : w₁.disk.wal = w.disk.wal) : Created w w' name specs := by
  refine ⟨h.mem, h.jsonl, fun c hne => ?_, h.wal.trans hwal, h.manifest⟩
  obtain ⟨hmem, hjsonl⟩ := h.others c hne
  obtain ⟨hmem', hjsonl'⟩ := hothers c hne
  exact ⟨hmem.trans hmem', hjsonl.trans hjsonl'⟩

theorem created_registerNew (h : w.disk.jsonl (jsonlPath name) = none) :
    Created w ((registerNew name specs).exec env w) name specs := by
  have hrun := run_registerNew env specs h
  obtain ⟨hjsonl, hwal, hman⟩ := disk_after_index (IndexManager.new name specs).isIndex_saveWrites
    (w.disk.write (.touchJsonl (jsonlPath name)))
    (.payload ((w.mem.set name (IndexManager.new name specs)).mapValues IndexManager.specs))
  have hexec : (registerNew name specs).exec env w =
      ⟨w.mem.set name (IndexManager.new name specs),
        applyAll (w.disk.write (.touchJsonl (jsonlPath name)))
          ((IndexManager.new name specs).saveWrites ++ [.replaceManifest (.payload
            ((w.mem.set name (IndexManager.new name specs)).mapValues IndexManager.specs))])⟩ :=
    Prog.exec_of_run hrun
  rw [hexec]
  refine ⟨OrdDict.get?_set_self _ _ _, ?_, fun c hc => ⟨OrdDict.get?_set_of_ne _ _ hc, ?_⟩,
    hwal, hman⟩
  · exact (congrFun hjsonl _).trans (Function.update_self ..)
  · have hp : jsonlPath c ≠ jsonlPath name := fun h => hc (jsonlPath_injective h)
    exact (congrFun hjsonl _).trans (Function.update_of_ne hp ..)

/-- A dropped collection is gone with its file, and nothing else is. -/
theorem dropCollection_spec (env : Env) (hc : name ∈ w.mem.keys) :
    (dropCollection name).value env w = .ok () ∧
      let w' := (dropCollection name).exec env w
      name ∉ w'.mem.keys ∧ w'.disk.jsonl (jsonlPath name) = none ∧
      (∀ c ≠ name, w'.mem.get? c = w.mem.get? c ∧
        w'.disk.jsonl (jsonlPath c) = w.disk.jsonl (jsonlPath c)) ∧
      w'.disk.wal = w.disk.wal := by
  obtain ⟨im, him⟩ := OrdDict.exists_get?_of_mem hc
  have hrun := run_dropCollection env him
  obtain ⟨hjsonl, hwal, -⟩ := disk_after_index im.isIndex_unlinkWrites
    (w.disk.write (.unlinkJsonl (jsonlPath name)))
    (.payload (((w.mem.set name im).erase name).mapValues IndexManager.specs))
  have hexec : (dropCollection name).exec env w =
      ⟨(w.mem.set name im).erase name,
        applyAll (w.disk.write (.unlinkJsonl (jsonlPath name))) (im.unlinkWrites ++
          [.replaceManifest (.payload
            (((w.mem.set name im).erase name).mapValues IndexManager.specs))])⟩ :=
    Prog.exec_of_run hrun
  refine ⟨congrArg Outcome.result hrun, ?_⟩
  rw [hexec]
  refine ⟨by simp, ?_, fun c hne => ⟨?_, ?_⟩, hwal⟩
  · exact (congrFun hjsonl _).trans (Function.update_self ..)
  · show ((w.mem.set name im).erase name).get? c = _
    rw [OrdDict.get?_erase, if_neg hne, OrdDict.get?_set_of_ne _ _ hne]
  · have hp : jsonlPath c ≠ jsonlPath name := fun h => hne (jsonlPath_injective h)
    exact (congrFun hjsonl _).trans (Function.update_of_ne hp ..)

/-- A registration that returns found no file. -/
theorem file_of_registerNew (hok : (registerNew name specs).value env w = .ok ()) :
    w.disk.jsonl (jsonlPath name) = none := by
  rcases hl : w.disk.jsonl (jsonlPath name) with _ | lines
  · rfl
  · rw [Prog.value, run_registerNew_of_some hl] at hok
    cases hok

/-- Creating a collection that is registered drops it first, if it may. -/
theorem run_createCollection (env : Env) (name : String) (specs : List IndexSpec) (drop : Bool)
    (w : Database) : (createCollection name specs drop).run env w =
      (if name ∈ w.mem.keys then
        if drop then dropCollection name >>= fun _ => registerNew name specs
        else Prog.raise (.collectionExistsError
          ("Collection " ++ strRepr name ++ " already exists. " ++
            "Pass drop_if_exists=True to replace it."))
      else registerNew name specs).run env w :=
  Prog.run_bind_read (Prog.run_getMem env w)

/-- **A collection that was created** is empty, and the others are as they
were. -/
theorem createCollection_spec {drop : Bool}
    (hok : (createCollection name specs drop).value env w = .ok ()) :
    Created w ((createCollection name specs drop).exec env w) name specs := by
  rw [Prog.value, run_createCollection] at hok
  rw [Prog.exec, run_createCollection]
  by_cases hc : name ∈ w.mem.keys
  · rw [if_pos hc] at hok ⊢
    cases drop with
    | false => cases hok
    | true =>
        -- the old collection goes first; what is left has the same others
        obtain ⟨hdrop, -, -, hothers, hwal⟩ := dropCollection_spec env hc
        have hok' := (Prog.value_bind_ok hdrop).symm.trans hok
        show Created w ((dropCollection name >>= fun _ => registerNew name specs).exec env w) _ _
        rw [Prog.exec_bind_ok hdrop]
        exact (created_registerNew (file_of_registerNew hok')).of_others hothers hwal
  · rw [if_neg hc] at hok ⊢
    exact created_registerNew (file_of_registerNew hok)

/-- On a name the engine does not know it only registers. -/
theorem run_createCollection_of_notMem (env : Env) (specs : List IndexSpec) (drop : Bool)
    (hc : name ∉ w.mem.keys) :
    (createCollection name specs drop).run env w = (registerNew name specs).run env w := by
  rw [run_createCollection, if_neg hc]

/-- A collection that is dropped and created again is new. -/
theorem created_after_drop (env : Env) (specs : List IndexSpec) (drop : Bool)
    (hc : name ∈ w.mem.keys) :
    let w₁ := (dropCollection name).exec env w
    (createCollection name specs drop).value env w₁ = .ok () ∧
      Created w ((createCollection name specs drop).exec env w₁) name specs := by
  intro w₁
  obtain ⟨-, hgone, hfile, hothers, hwal⟩ := dropCollection_spec env hc
  have hrun := run_createCollection_of_notMem env specs drop hgone
  rw [Prog.value, Prog.exec, hrun]
  exact ⟨congrArg Outcome.result (run_registerNew env specs hfile),
    (created_registerNew hfile).of_others hothers hwal⟩

theorem Created.table {w' : Database} (h : Created w w' name specs) :
    tables w'.disk name = OrdDict.empty := tables_of_lines h.jsonl

theorem Created.mem_keys {w' : Database} (h : Created w w' name specs) {c : String}
    (hc : c = name ∨ c ∈ w.mem.keys) : c ∈ w'.mem.keys := by
  rcases eq_or_ne c name with rfl | hne
  · exact OrdDict.mem_keys_of_get? h.mem
  · rw [← OrdDict.isSome_get?_iff, (h.others c hne).1, OrdDict.isSome_get?_iff]
    exact hc.resolve_left hne

theorem Created.serving {w' : Database} (h : Created w w' name specs) (hw : Serving w) :
    Serving w' := by
  intro c hc
  rcases eq_or_ne c name with rfl | hne
  · rw [h.jsonl]
    rfl
  · obtain ⟨hmem, hjsonl⟩ := h.others c hne
    rw [hjsonl]
    refine hw c (OrdDict.isSome_get?_iff.mp ?_)
    rw [← hmem]
    exact OrdDict.isSome_get?_iff.mpr hc

end JsonpySql
