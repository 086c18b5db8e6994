/-
JsonpySql/CollectionManager.lean

The registry of collections above the engine.

A manager knows two kinds of collections by name and creates and drops them
through the engine; on a reopened database the engine knows collections that
the manager does not.  A registration comes to one of three things
(`RegisterOutcome`): it raises and nothing has changed, it reconnects to what
the engine has, or it leaves a new collection of that name (`Created`).  So the
manager never knows a name twice, nor one the engine does not have, and only a
registration that was told to drop a collection empties one
(`manager_inStep`).
-/
import JsonpySql.Collections
import JsonpySql.SchemaCollection

namespace JsonpySql

open StorageEngine

/-- A collection without a model. -/
structure DocumentCollection where
  name : String
deriving DecidableEq

/-- The manager, with its engine in memory. -/
structure CollectionManager where
  engine : Registry
  schemaCols : OrdDict String SchemaCollection
  docCols : OrdDict String DocumentCollection

/-- Programs of the manager. -/
abbrev ManagerM := StoreM CollectionManager

namespace CollectionManager

/-- `CollectionManager(engine)`. -/
def new (engine : Registry) : CollectionManager := ⟨engine, OrdDict.empty, OrdDict.empty⟩

def setEngine (self : CollectionManager) (engine : Registry) : CollectionManager :=
  { self with engine := engine }

/-- Run a program of the engine. -/
def onEngine {α : Type} (p : EngineM α) : ManagerM α := Prog.zoom engine setEngine p

/-- The name is registered. -/
def hasCollection (self : CollectionManager) (name : String) : Prop :=
  name ∈ self.schemaCols.keys ∨ name ∈ self.docCols.keys

instance (self : CollectionManager) (name : String) : Decidable (self.hasCollection name) :=
  inferInstanceAs (Decidable (_ ∨ _))

/-- `pop` the name from both registries. -/
def forget (self : CollectionManager) (name : String) : CollectionManager :=
  { self with schemaCols := self.schemaCols.erase name, docCols := self.docCols.erase name }

def addSchema (col : SchemaCollection) (self : CollectionManager) : CollectionManager :=
  { self with schemaCols := self.schemaCols.set col.name col }

def addDocument (col : DocumentCollection) (self : CollectionManager) : CollectionManager :=
  { self with docCols := self.docCols.set col.name col }

/-! ### Operations -/

def dropCollection (name : String) : ManagerM Unit := do
  let self ← Prog.getMem
  if self.hasCollection name then do
    Prog.modifyMem fun self : CollectionManager => self.forget name
    onEngine (StorageEngine.dropCollection name)
  else
    Prog.raise (.storageError ("Collection " ++ strRepr name ++ " is not registered."))

/-- The first half of a registration: the name must not be registered, or is
dropped. -/
def makeRoom (name : String) (dropIfExists : Bool) : ManagerM Unit := do
  let self ← Prog.getMem
  if self.hasCollection name then
    if dropIfExists then dropCollection name
    else
      Prog.raise (.collectionExistsError
        ("Collection " ++ strRepr name ++ " is already registered."))
  else pure ()

/-- The second half: the engine gets the collection, unless it has it and is to
keep it. -/
def connect (name : String) (specs : List IndexSpec) (dropIfExists : Bool) : ManagerM Unit := do
  let self ← Prog.getMem
  if name ∈ self.engine.keys then
    if dropIfExists then do
      onEngine (StorageEngine.dropCollection name)
      onEngine (createCollection name specs false)
    -- a reopened database keeps its data
    else pure ()
  else onEngine (createCollection name specs false)

/-- Both halves, and the entry in a registry. -/
def register {α : Type} (name : String) (specs : List IndexSpec) (dropIfExists : Bool)
    (add : α → CollectionManager → CollectionManager) (col : α) : ManagerM α := do
  makeRoom name dropIfExists
  connect name specs dropIfExists
  Prog.modifyMem (add col)
  return col

/-- The specs of the indexed fields of a model. -/
def modelSpecs (model : Model) : List IndexSpec :=
  model.getIndexedFields.map fun f => ⟨[f], decide (f ∈ model.getUniqueFields)⟩

def registerSchemaCollection (name : String) (model : Model) (dropIfExists : Bool) :
    ManagerM SchemaCollection :=
  register name (modelSpecs model) dropIfExists addSchema (schemaCollection name model)

def registerDocumentCollection (name : String) (indexes : Option (List String))
    (dropIfExists : Bool) : ManagerM DocumentCollection :=
  register name ((indexes.getD []).map fun f => ⟨[f], false⟩) dropIfExists addDocument ⟨name⟩

end CollectionManager

/-- A call on the manager. -/
inductive ManagerCall
  | registerSchema (name : String) (model : Model) (dropIfExists : Bool)
  | registerDocument (name : String) (indexes : Option (List String)) (dropIfExists : Bool)
  | drop (name : String)

/-- The call; the collection a registration returns is left out. -/
def ManagerCall.perform : ManagerCall → ManagerM Unit
  | .registerSchema name model dropIfExists => do
      let _ ← CollectionManager.registerSchemaCollection name model dropIfExists
      return ()
  | .registerDocument name indexes dropIfExists => do
      let _ ← CollectionManager.registerDocumentCollection name indexes dropIfExists
      return ()
  | .drop name => CollectionManager.dropCollection name

namespace CollectionManager

variable {α : Type} {env : Env} {w w' : World CollectionManager Disk} {name : String}
  {specs : List IndexSpec} {drop : Bool}

/-- The engine of the manager, and the directory. -/
def database (w : World CollectionManager Disk) : Database := ⟨w.mem.engine, w.disk⟩

/-! ### In step -/

/-- No name is in both registries, and the engine has every registered one. -/
structure InStep (w : World CollectionManager Disk) : Prop where
  disjoint : ∀ name ∈ w.mem.schemaCols.keys, name ∉ w.mem.docCols.keys
  live : ∀ name, w.mem.hasCollection name → name ∈ w.mem.engine.keys

theorem hasCollection_forget {self : CollectionManager} {c : String} :
    (self.forget name).hasCollection c ↔ self.hasCollection c ∧ c ≠ name := by
  simp [hasCollection, forget, or_and_right]

theorem forget_of_not_has {self : CollectionManager} (h : ¬self.hasCollection name) :
    self.forget name = self := by
  obtain ⟨hschema, hdoc⟩ := not_or.mp h
  rw [forget, OrdDict.erase_of_notMem hschema, OrdDict.erase_of_notMem hdoc]

/-! ### Dropping -/

theorem run_dropCollection_of_not_has (h : ¬w.mem.hasCollection name) :
    (dropCollection name).run env w = ⟨.error (.storageError
      ("Collection " ++ strRepr name ++ " is not registered.")), w.mem, []⟩ := by
  rw [dropCollection, Prog.run_bind_read (Prog.run_getMem env w), if_neg h]
  rfl

/-- A registered collection is dropped from both registries and from the engine. -/
theorem dropCollection_spec (env : Env) (hw : InStep w) (h : w.mem.hasCollection name) :
    let w₁ := (StorageEngine.dropCollection name).exec env (database w)
    (dropCollection name).value env w = .ok () ∧
      (dropCollection name).exec env w = ⟨(w.mem.forget name).setEngine w₁.mem, w₁.disk⟩ := by
  have hdrop := (JsonpySql.dropCollection_spec (w := database w) env (hw.live name h)).1
  have hrun : (dropCollection name).run env w =
      (onEngine (StorageEngine.dropCollection name)).run env ⟨w.mem.forget name, w.disk⟩ := by
    rw [dropCollection, Prog.run_bind_read (Prog.run_getMem env w), if_pos h]
    rfl
  have hexec : (dropCollection name).exec env w =
      (onEngine (StorageEngine.dropCollection name)).exec env ⟨w.mem.forget name, w.disk⟩ :=
    Prog.exec_of_run hrun
  exact ⟨(congrArg Outcome.result hrun).trans hdrop, hexec⟩

/-! ### Registering -/

/-- What a registration comes to. -/
inductive RegisterOutcome (name : String) (specs : List IndexSpec) (drop : Bool)
    (add : α → CollectionManager → CollectionManager) (col : α)
    (w : World CollectionManager Disk) (result : Except PyErr α)
    (w' : World CollectionManager Disk) : Prop
  | refused {e : PyErr} (hresult : result = .error e) (hworld : w' = w)
  | reconnected (hdrop : drop = false) (hlive : name ∈ w.mem.engine.keys)
      (hnew : ¬w.mem.hasCollection name) (hresult : result = .ok col)
      (hworld : w' = ⟨add col w.mem, w.disk⟩)
  | created {w₁ : Database} (hfree : drop = true ∨ name ∉ w.mem.engine.keys)
      (hcreated : Created (database w) w₁ name specs) (hresult : result = .ok col)
      (hworld : w' = ⟨add col ((w.mem.forget name).setEngine w₁.mem), w₁.disk⟩)

variable {add : α → CollectionManager → CollectionManager} {col : α}

theorem run_makeRoom_of_not_has (env : Env) (drop : Bool) (h : ¬w.mem.hasCollection name) :
    (makeRoom name drop).run env w = ⟨.ok (), w.mem, []⟩ := by
  rw [makeRoom, Prog.run_bind_read (Prog.run_getMem env w), if_neg h]
  rfl

theorem run_makeRoom_drop (env : Env) (h : w.mem.hasCollection name) :
    (makeRoom name true).run env w = (dropCollection name).run env w := by
  rw [makeRoom, Prog.run_bind_read (Prog.run_getMem env w), if_pos h]
  rfl

theorem run_makeRoom_keep (env : Env) (h : w.mem.hasCollection name) :
    (makeRoom name false).run env w = ⟨.error (.collectionExistsError
      ("Collection " ++ strRepr name ++ " is already registered.")), w.mem, []⟩ := by
  rw [makeRoom, Prog.run_bind_read (Prog.run_getMem env w), if_pos h]
  rfl

theorem run_connect_of_notMem (env : Env) (specs : List IndexSpec) (drop : Bool)
    (hc : name ∉ w.mem.engine.keys) :
    (connect name specs drop).run env w =
      (onEngine (createCollection name specs false)).run env w := by
  rw [connect, Prog.run_bind_read (Prog.run_getMem env w), if_neg hc]

theorem run_connect_keep (env : Env) (specs : List IndexSpec) (hc : name ∈ w.mem.engine.keys) :
    (connect name specs false).run env w = ⟨.ok (), w.mem, []⟩ := by
  rw [connect, Prog.run_bind_read (Prog.run_getMem env w), if_pos hc]
  rfl

theorem run_connect_drop (env : Env) (specs : List IndexSpec) (hc : name ∈ w.mem.engine.keys) :
    (connect name specs true).run env w =
      (onEngine (StorageEngine.dropCollection name) >>= fun _ =>
        onEngine (createCollection name specs false)).run env w := by
  rw [connect, Prog.run_bind_read (Prog.run_getMem env w), if_pos hc]
  rfl

/-- A registration whose two halves return. -/
theorem register_ok (add : α → CollectionManager → CollectionManager) (col : α)
    {w₁ w₂ : World CollectionManager Disk}
    (hroom : (makeRoom name drop).value env w = .ok ()) (hw₁ : (makeRoom name drop).exec env w = w₁)
    (hconnect : (connect name specs drop).value env w₁ = .ok ())
    (hw₂ : (connect name specs drop).exec env w₁ = w₂) :
    (register name specs drop add col).value env w = .ok col ∧
      (register name specs drop add col).exec env w = ⟨add col w₂.mem, w₂.disk⟩ := by
  rw [register, Prog.value_bind_ok hroom, Prog.exec_bind_ok hroom, hw₁,
    Prog.value_bind_ok hconnect, Prog.exec_bind_ok hconnect, hw₂]
  exact ⟨rfl, rfl⟩

/-- A registration that raises before it has changed anything. -/
theorem register_refuses {e : PyErr}
    (hrun : (register name specs drop add col).run env w = ⟨.error e, w.mem, []⟩) :
    RegisterOutcome name specs drop add col w ((register name specs drop add col).value env w)
      ((register name specs drop add col).exec env w) := by
  rw [Prog.value, Prog.exec, hrun]
  exact .refused rfl rfl

/-- A registered collection may be replaced: it goes first, and the engine does not
have the name when it is to create it. -/
theorem register_replaces (env : Env) (specs : List IndexSpec)
    (add : α → CollectionManager → CollectionManager) (col : α) (hw : InStep w)
    (hhas : w.mem.hasCollection name) :
    RegisterOutcome name specs true add col w ((register name specs true add col).value env w)
      ((register name specs true add col).exec env w) := by
  have hroom := run_makeRoom_drop env hhas
  obtain ⟨hdrop, hw₁⟩ := dropCollection_spec env hw hhas
  have hlive : name ∈ (database w).mem.keys := hw.live name hhas
  obtain ⟨-, hgone, -⟩ := JsonpySql.dropCollection_spec env hlive
  obtain ⟨hcreate, hcreated⟩ := created_after_drop env specs false hlive
  have hconnect := run_connect_of_notMem env specs true
    (w := ⟨(w.mem.forget name).setEngine
      ((StorageEngine.dropCollection name).exec env (database w)).mem,
      ((StorageEngine.dropCollection name).exec env (database w)).disk⟩) hgone
  obtain ⟨hvalue, hexec⟩ := register_ok add col
    ((congrArg Outcome.result hroom).trans hdrop) ((Prog.exec_congr hroom).trans hw₁)
    ((congrArg Outcome.result hconnect).trans hcreate) (Prog.exec_congr hconnect)
  exact .created (Or.inl rfl) hcreated hvalue hexec

/-- The engine has the collection and the manager does not: it is kept, or dropped
and created again. -/
theorem register_reconnects (env : Env) (specs : List IndexSpec) (drop : Bool)
    (add : α → CollectionManager → CollectionManager) (col : α)
    (hhas : ¬w.mem.hasCollection name) (hc : name ∈ w.mem.engine.keys) :
    RegisterOutcome name specs drop add col w ((register name specs drop add col).value env w)
      ((register name specs drop add col).exec env w) := by
  have hroom := run_makeRoom_of_not_has env drop hhas
  have hw₁ : (makeRoom name drop).exec env w = w := Prog.exec_of_run hroom
  cases drop with
  | false =>
      have hconnect := run_connect_keep env specs hc
      have hw₂ : (connect name specs false).exec env w = w := Prog.exec_of_run hconnect
      obtain ⟨hvalue, hexec⟩ := register_ok add col
        (congrArg Outcome.result hroom) hw₁ (congrArg Outcome.result hconnect) hw₂
      exact .reconnected rfl hc hhas hvalue hexec
  | true =>
      have hconnect := run_connect_drop env specs hc
      have hlive : name ∈ (database w).mem.keys := hc
      obtain ⟨hcreate, hcreated⟩ := created_after_drop env specs false hlive
      have hdrop : (onEngine (StorageEngine.dropCollection name)).value env w = .ok () :=
        (JsonpySql.dropCollection_spec env hlive).1
      obtain ⟨hvalue, hexec⟩ := register_ok add col (congrArg Outcome.result hroom) hw₁
        ((congrArg Outcome.result hconnect).trans ((Prog.value_bind_ok hdrop).trans hcreate))
        ((Prog.exec_congr hconnect).trans (Prog.exec_bind_ok hdrop))
      refine .created (Or.inl rfl) hcreated hvalue (hexec.trans ?_)
      rw [forget_of_not_has hhas]
      rfl

/-- Nobody has the collection: it is created, unless a file is in the way. -/
theorem register_creates (env : Env) (specs : List IndexSpec) (drop : Bool)
    (add : α → CollectionManager → CollectionManager) (col : α)
    (hhas : ¬w.mem.hasCollection name) (hc : name ∉ w.mem.engine.keys) :
    RegisterOutcome name specs drop add col w ((register name specs drop add col).value env w)
      ((register name specs drop add col).exec env w) := by
  have hroom := run_makeRoom_of_not_has env drop hhas
  have hw₁ : (makeRoom name drop).exec env w = w := Prog.exec_of_run hroom
  have hconnect := run_connect_of_notMem env specs drop hc
  have hengine := run_createCollection_of_notMem (w := database w) env specs false hc
  rcases hfile : (database w).disk.jsonl (jsonlPath name) with _ | lines
  · have hcreated := @created_registerNew env _ _ specs hfile
    have hcreate := (congrArg Outcome.result hengine).trans
      (congrArg Outcome.result (run_registerNew env specs hfile))
    obtain ⟨hvalue, hexec⟩ := register_ok add col (congrArg Outcome.result hroom) hw₁
      ((congrArg Outcome.result hconnect).trans hcreate) (Prog.exec_congr hconnect)
    rw [← Prog.exec_congr hengine] at hcreated
    refine .created (Or.inr hc) hcreated hvalue (hexec.trans ?_)
    rw [forget_of_not_has hhas]
    rfl
  · rw [run_registerNew_of_some hfile] at hengine
    have hraise : (connect name specs drop).run env w = ⟨.error _, w.mem, []⟩ :=
      hconnect.trans (Prog.run_zoom hengine)
    exact register_refuses ((Prog.run_bind_read hroom).trans (Prog.run_bind_error hraise))

/-- **What a registration comes to**, by who has the collection. -/
theorem register_outcome (env : Env) (hw : InStep w) (name : String) (specs : List IndexSpec)
    (drop : Bool) (add : α → CollectionManager → CollectionManager) (col : α) :
    RegisterOutcome name specs drop add col w ((register name specs drop add col).value env w)
      ((register name specs drop add col).exec env w) := by
  by_cases hhas : w.mem.hasCollection name
  · cases drop with
    | false => exact register_refuses (Prog.run_bind_error (run_makeRoom_keep env hhas))
    | true => exact register_replaces env specs add col hw hhas
  · by_cases hc : name ∈ w.mem.engine.keys
    · exact register_reconnects env specs drop add col hhas hc
    · exact register_creates env specs drop add col hhas hc

/-! ### What a call keeps -/

/-- The engine has the collection, and it has no documents. -/
def HoldsNothing (w : Database) (c : String) : Prop :=
  c ∈ w.mem.keys ∧ ∀ env : Env, env.Alone → (StorageEngine.scan c).value env w = .ok []

/-- A collection that was there reads as before, and one that was not there has
no documents. -/
def KeepsDocuments (w w' : Database) (c : String) : Prop :=
  (c ∈ w.mem.keys → c ∈ w'.mem.keys ∧ ∀ env,
    (StorageEngine.scan c).value env w' = (StorageEngine.scan c).value env w ∧
    ∀ i, (StorageEngine.get c i).value env w' = (StorageEngine.get c i).value env w) ∧
  (c ∉ w.mem.keys → c ∈ w'.mem.keys → HoldsNothing w' c)

end CollectionManager

/-- The name a registration is for, and whether it may drop what it finds. -/
def ManagerCall.registers : ManagerCall → Option (String × Bool)
  | .registerSchema name _ dropIfExists | .registerDocument name _ dropIfExists =>
      some (name, dropIfExists)
  | .drop _ => none

namespace CollectionManager

/-- A registration that may not drop keeps all documents, however it ends; one
that may and returns leaves its collection empty and keeps all others. -/
def SparesDocuments (env : Env) (w : World CollectionManager Disk) (call : ManagerCall) : Prop :=
  let w' := call.perform.exec env w
  (∀ name, call.registers = some (name, false) → ∀ c, KeepsDocuments (database w) (database w') c) ∧
  ∀ name, call.registers = some (name, true) → call.perform.value env w = .ok () →
    HoldsNothing (database w') name ∧ ∀ c ≠ name, KeepsDocuments (database w) (database w') c

theorem KeepsDocuments.refl (w : Database) (c : String) : KeepsDocuments w w c :=
  ⟨fun hc => ⟨hc, fun _ => ⟨rfl, fun _ => rfl⟩⟩, fun hc hc' => absurd hc' hc⟩

theorem holdsNothing_of_created {w w' : Database} (h : Created w w' name specs) :
    HoldsNothing w' name := by
  have hc : name ∈ w'.mem.keys := h.mem_keys (Or.inl rfl)
  refine ⟨hc, fun env henv => ?_⟩
  have hfile : (w'.disk.jsonl (jsonlPath name)).isSome := by
    rw [h.jsonl]
    rfl
  rw [Prog.value, StorageEngine.scan, Prog.run_bind_read (run_require hc)]
  refine congrArg Outcome.result ((LockManager.run_locked hfile
    (LockManager.blocked_of_alone henv _ .shared) _).trans (DocumentStore.run_scan h.jsonl))

/-- A new collection keeps the others, and all if it is new to the engine. -/
theorem keepsDocuments_of_created {w w' : Database} (h : Created w w' name specs) {c : String}
    (hc : c ≠ name ∨ name ∉ w.mem.keys) : KeepsDocuments w w' c := by
  rcases eq_or_ne c name with rfl | hne
  · have hnew := hc.resolve_left fun h => h rfl
    exact ⟨fun hmem => absurd hmem hnew, fun _ _ => holdsNothing_of_created h⟩
  · obtain ⟨hmem, hjsonl⟩ := h.others c hne
    have hkeys : c ∈ w'.mem.keys ↔ c ∈ w.mem.keys := by
      rw [← OrdDict.isSome_get?_iff, hmem, OrdDict.isSome_get?_iff]
    refine ⟨fun hc => ⟨hkeys.mpr hc, fun env => ⟨?_, fun i => ?_⟩⟩, fun hc hc' => ?_⟩
    · exact value_scan_congr hc (hkeys.mpr hc) hjsonl
    · exact value_get_congr hc (hkeys.mpr hc) hjsonl i
    · exact absurd (hkeys.mp hc') hc

/-! ### What a call does -/

theorem InStep.forget (hw : InStep w) {w₁ : Database}
    (hothers : ∀ c ≠ name, w₁.mem.get? c = w.mem.engine.get? c) :
    InStep ⟨(w.mem.forget name).setEngine w₁.mem, w₁.disk⟩ := by
  refine ⟨fun c hschema hdoc => ?_, fun c hc => ?_⟩
  · exact hw.disjoint c (OrdDict.mem_keys_erase.mp hschema).1 (OrdDict.mem_keys_erase.mp hdoc).1
  · obtain ⟨hhas, hne⟩ := hasCollection_forget.mp hc
    show c ∈ w₁.mem.keys
    rw [← OrdDict.isSome_get?_iff, hothers c hne, OrdDict.isSome_get?_iff]
    exact hw.live c hhas

theorem InStep.addSchema {col : SchemaCollection} (hw : InStep w)
    (hlive : col.name ∈ w.mem.engine.keys) (hnew : ¬w.mem.hasCollection col.name) :
    InStep ⟨addSchema col w.mem, w.disk⟩ := by
  constructor
  · intro c hschema hdoc
    obtain rfl | hold := OrdDict.mem_keys_set.mp hschema
    · exact hnew (Or.inr hdoc)
    · exact hw.disjoint c hold hdoc
  · rintro c (hschema | hdoc)
    · obtain rfl | hold := OrdDict.mem_keys_set.mp hschema
      · exact hlive
      · exact hw.live c (Or.inl hold)
    · exact hw.live c (Or.inr hdoc)

theorem InStep.addDocument {col : DocumentCollection} (hw : InStep w)
    (hlive : col.name ∈ w.mem.engine.keys) (hnew : ¬w.mem.hasCollection col.name) :
    InStep ⟨addDocument col w.mem, w.disk⟩ := by
  constructor
  · intro c hschema hdoc
    obtain rfl | hold := OrdDict.mem_keys_set.mp hdoc
    · exact hnew (Or.inl hschema)
    · exact hw.disjoint c hschema hold
  · rintro c (hschema | hdoc)
    · exact hw.live c (Or.inl hschema)
    · obtain rfl | hold := OrdDict.mem_keys_set.mp hdoc
      · exact hlive
      · exact hw.live c (Or.inr hold)

/-- A registration keeps the two in step, where its entry does. -/
theorem RegisterOutcome.inStep {result : Except PyErr α}
    (h : RegisterOutcome name specs drop add col w result w') (hw : InStep w)
    (hadd : ∀ w, InStep w → name ∈ w.mem.engine.keys → ¬w.mem.hasCollection name →
      InStep ⟨add col w.mem, w.disk⟩) : InStep w' := by
  cases h with
  | refused _ hworld => exact hworld ▸ hw
  | reconnected _ hlive hnew _ hworld => exact hworld ▸ hadd w hw hlive hnew
  | @created w₁ _ hcreated _ hworld =>
      rw [hworld]
      refine hadd _ (hw.forget fun c hne => (hcreated.others c hne).1) ?_ fun h => ?_
      · exact hcreated.mem_keys (Or.inl rfl)
      · exact (hasCollection_forget.mp h).2 rfl

/-- And it spares the documents, where its entry leaves the engine alone. -/
theorem RegisterOutcome.spares {result : Except PyErr α}
    (h : RegisterOutcome name specs drop add col w result w')
    (hadd : ∀ self, (add col self).engine = self.engine) :
    (drop = false → ∀ c, KeepsDocuments (database w) (database w') c) ∧
      (drop = true → result = .ok col → HoldsNothing (database w') name ∧
        ∀ c ≠ name, KeepsDocuments (database w) (database w') c) := by
  cases h with
  | refused hresult hworld =>
      rw [hworld]
      refine ⟨fun _ c => KeepsDocuments.refl _ c, fun _ hok => ?_⟩
      cases hresult.symm.trans hok
  | reconnected hdrop _ _ _ hworld =>
      have hsame : database w' = database w := by
        rw [hworld, database, hadd]
        rfl
      rw [hsame, hdrop]
      exact ⟨fun _ c => KeepsDocuments.refl _ c, nofun⟩
  | @created w₁ hfree hcreated _ hworld =>
      have hsame : database w' = w₁ := by
        rw [hworld, database, hadd]
        rfl
      rw [hsame]
      refine ⟨fun hdrop c => ?_, fun _ _ => ⟨holdsNothing_of_created hcreated, fun c hne => ?_⟩⟩
      · refine keepsDocuments_of_created hcreated (Or.inr (hfree.resolve_left fun h => ?_))
        cases hdrop.symm.trans h
      · exact keepsDocuments_of_created hcreated (Or.inl hne)

/-- A registration, as a call. -/
theorem perform_register {call : ManagerCall} (hw : InStep w)
    (hperform : call.perform = (register name specs drop add col >>= fun _ => pure ()))
    (hregisters : call.registers = some (name, drop))
    (hengine : ∀ self, (add col self).engine = self.engine)
    (hadd : ∀ w, InStep w → name ∈ w.mem.engine.keys → ¬w.mem.hasCollection name →
      InStep ⟨add col w.mem, w.disk⟩) :
    InStep (call.perform.exec env w) ∧ SparesDocuments env w call := by
  have houtcome := register_outcome env hw name specs drop add col
  obtain ⟨hkeep, hdrop⟩ := houtcome.spares hengine
  have hexec : call.perform.exec env w = (register name specs drop add col).exec env w := by
    rw [hperform]
    exact Prog.exec_bind_pure _ _ _ _
  rw [SparesDocuments, hexec, hregisters]
  refine ⟨houtcome.inStep hw hadd, ?_, ?_⟩
  · rintro _ ⟨⟩
    exact hkeep rfl
  · rintro _ ⟨⟩ hok
    rw [hperform, Prog.value_bind_pure_eq_ok] at hok
    obtain ⟨col', hok, -⟩ := hok
    -- what is returned is the collection that was entered
    have hcol : (register name specs true add col).value env w = .ok col := by
      cases houtcome with
      | refused hresult => cases hresult.symm.trans hok
      | reconnected hdrop => cases hdrop
      | created _ _ hresult => exact hresult
    exact hdrop rfl hcol

/-- **A call** keeps the two in step, and spares the documents it was not told to
drop. -/
theorem perform_spec (env : Env) (hw : InStep w) (call : ManagerCall) :
    InStep (call.perform.exec env w) ∧ SparesDocuments env w call := by
  cases call with
  | registerSchema name model drop =>
      exact perform_register hw rfl rfl (fun _ => rfl) fun _ hw hlive hnew =>
        @InStep.addSchema _ (schemaCollection name model) hw hlive hnew
  | registerDocument name indexes drop =>
      exact perform_register hw rfl rfl (fun _ => rfl) fun _ hw hlive hnew =>
        @InStep.addDocument _ ⟨name⟩ hw hlive hnew
  | drop name =>
      refine ⟨?_, nofun, nofun⟩
      show InStep ((dropCollection name).exec env w)
      by_cases h : w.mem.hasCollection name
      · obtain ⟨-, -, -, hothers, -⟩ :=
          JsonpySql.dropCollection_spec (w := database w) env (hw.live name h)
        rw [(dropCollection_spec env hw h).2]
        exact hw.forget fun c hne => (hothers c hne).1
      · rw [Prog.exec, run_dropCollection_of_not_has h]
        exact hw

/-! ### Runs -/

/-- The state after a sequence of calls, each in surroundings of its own and each
returning or raising. -/
def afterCalls (w : World CollectionManager Disk) (calls : List (Env × ManagerCall)) :
    World CollectionManager Disk :=
  calls.foldl (fun w call => call.2.perform.exec call.1 w) w

theorem InStep.afterCalls (hw : InStep w) (calls : List (Env × ManagerCall)) :
    InStep (afterCalls w calls) := by
  induction calls generalizing w with
  | nil => exact hw
  | cons call calls ih => exact ih (perform_spec call.1 hw call.2).1

/-- **The manager and the engine stay in step.**  On any database, after any
sequence of calls on a new manager: no name is in both registries and the engine
has every registered one; a registration that may not drop keeps the documents
of every collection, whether it returns or raises, and one that may and returns
leaves its collection empty and keeps the documents of all others. -/
theorem manager_inStep (w₀ : Database) (calls : List (Env × ManagerCall)) :
    let w := afterCalls ⟨CollectionManager.new w₀.mem, w₀.disk⟩ calls
    InStep w ∧ ∀ env call, SparesDocuments env w call := by
  intro w
  have hnew : InStep ⟨CollectionManager.new w₀.mem, w₀.disk⟩ := by
    refine ⟨nofun, ?_⟩
    rintro name (h | h) <;> cases h
  have hw : InStep w := hnew.afterCalls calls
  exact ⟨hw, fun env call => (perform_spec env hw call).2⟩

end CollectionManager

end JsonpySql
