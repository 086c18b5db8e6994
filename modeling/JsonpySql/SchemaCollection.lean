/-
JsonpySql/SchemaCollection.lean

Collections with a model: validated and checked before each write, with the
children of every parent recorded in the reverse index.

All of a call but its one write to the engine either only reads or changes the
reverse index (`EditsReverse`).  The write is one that the checks of the call
have admitted (`Admits`).
-/
import JsonpySql.Constraints
import JsonpySql.IndexInvariants

namespace JsonpySql

open StorageEngine

structure SchemaCollection where
  name : String
  model : Model
  fkCheckers : OrdDict String ReferentialIntegrityChecker

namespace SchemaCollection

def pkField (self : SchemaCollection) : Option String := self.model.getPrimaryKeyField

def fkMeta (self : SchemaCollection) : OrdDict String ForeignKeyMeta := self.model.getForeignKeys

def uniqueChecker (self : SchemaCollection) : UniqueConstraintChecker :=
  ⟨self.name, self.model.getUniqueFields⟩

/-! ### Helpers -/

/-- The primary key of a document, or a new UUID. -/
def extractOrGenerateId (self : SchemaCollection) (document : Doc) : EngineM String := do
  let env ← Prog.env
  match self.pkField.bind document.get? with
  | some key => pure key.toStr
  | none => pure (uuidStr env.uuid)

/-- Every foreign key of a document refers to a document. -/
def checkChild (self : SchemaCollection) (document : Doc) : EngineM Unit :=
  self.fkCheckers.values.forM fun checker => checker.checkChildInsert document

/-- One turn of the loops below: change the reverse index of the collection for
one foreign key. -/
def editFkReverse (self : SchemaCollection) (edit : String → StoreM IndexManager Unit)
    (document : Doc) (fieldName : String) : EngineM Unit :=
  if document.get fieldName = .none then pure ()
  else do
    let registry ← Prog.getMem
    match registry.get? self.name with
    | none => pure ()
    | some _ => indexes self.name (edit (document.get fieldName).toStr)

def registerFkReverse (self : SchemaCollection) (docId : String) (document : Doc) :
    EngineM Unit :=
  self.fkMeta.keys.forM (self.editFkReverse (IndexManager.addReverse · docId) document)

def unregisterFkReverse (self : SchemaCollection) (docId : String) (document : Doc) :
    EngineM Unit :=
  self.fkMeta.keys.forM (self.editFkReverse (IndexManager.removeReverse · docId) document)

/-! ### Operations -/

def insert (self : SchemaCollection) (document : Doc) : EngineM String := do
  let validated ← Validator.validate self.model document
  let docId ← self.extractOrGenerateId validated
  self.uniqueChecker.checkInsert validated
  self.checkChild validated
  StorageEngine.insert self.name docId validated
  self.registerFkReverse docId validated
  return docId

def update (self : SchemaCollection) (docId : String) (document : Doc) : EngineM Unit := do
  let validated ← Validator.validate self.model document
  let oldDoc ← StorageEngine.get self.name docId
  match oldDoc with
  | none =>
      Prog.raise (.storageError
        ("Cannot update " ++ strRepr docId ++ " in collection " ++ strRepr self.name ++
          ": no such document. update() replaces existing documents only; " ++
          "use insert() to create a new one."))
  | some oldDoc => do
      self.uniqueChecker.checkUpdate docId validated
      self.checkChild validated
      -- the reverse index is edited before the write, and stays so if the write raises
      self.unregisterFkReverse docId oldDoc
      StorageEngine.update self.name docId validated
      self.registerFkReverse docId validated

/-- The loop over the checkers has an empty body. -/
def delete (self : SchemaCollection) (docId : String) : EngineM Unit := do
  self.fkCheckers.values.forM fun _ => pure ()
  let doc ← StorageEngine.get self.name docId
  StorageEngine.delete self.name docId
  match doc with
  | none => pure ()
  | some doc => self.unregisterFkReverse docId doc

def get (self : SchemaCollection) (docId : String) : EngineM (Option Doc) :=
  StorageEngine.get self.name docId

def scan (self : SchemaCollection) : EngineM (List Record) := StorageEngine.scan self.name

end SchemaCollection

/-- A call that writes. -/
inductive SchemaCall
  | insert (document : Doc)
  | update (docId : String) (document : Doc)
  | delete (docId : String)
deriving DecidableEq

/-- The call; the id an insert returns is dropped. -/
def SchemaCall.perform (self : SchemaCollection) : SchemaCall → EngineM Unit
  | .insert document => do
      let _ ← self.insert document
      return ()
  | .update docId document => self.update docId document
  | .delete docId => self.delete docId

/-! ### The reverse index -/

/-- Only the reverse index differs. -/
def ReverseOnly (im im' : IndexManager) : Prop := ∃ rev, im' = { im with reverse := rev }

namespace ReverseOnly

variable {im im' im'' : IndexManager}

theorem refl (im : IndexManager) : ReverseOnly im im := ⟨im.reverse, rfl⟩

theorem trans (h : ReverseOnly im im') (h' : ReverseOnly im' im'') : ReverseOnly im im'' := by
  obtain ⟨rev, rfl⟩ := h
  obtain ⟨rev', rfl⟩ := h'
  exact ⟨rev', rfl⟩

/-- A write changes the forward indexes whatever the reverse index is. -/
theorem newIndexes (h : ReverseOnly im im') (op : WriteOp) (t : Table) :
    ReverseOnly (op.newIndexes t im) (op.newIndexes t im') := by
  obtain ⟨rev, rfl⟩ := h
  refine ⟨rev, ?_⟩
  cases op with
  | insert c i d => rfl
  | update c i d => rcases h : t.get i with _ | old <;>
      simp [WriteOp.newIndexes, IndexManager.replaceInIndexes, IndexManager.addToIndexes,
        IndexManager.removeFromIndexes, h]
  | delete c i => rcases h : t.get i with _ | old <;>
      simp [WriteOp.newIndexes, IndexManager.dropFromIndexes, IndexManager.removeFromIndexes, h]

theorem specs (h : ReverseOnly im im') : im'.specs = im.specs := by
  obtain ⟨rev, rfl⟩ := h
  rfl

theorem complete (h : ReverseOnly im im') {t : Table} (hc : im.Complete t) : im'.Complete t := by
  obtain ⟨rev, rfl⟩ := h
  exact hc

end ReverseOnly

/-- A program that returns `a` and changes nothing but the reverse index of a
collection. -/
def EditsReverse {α : Type} (env : Env) (c : String) (q : EngineM α) (a : α) : Prop :=
  ∀ w im, w.mem.get? c = some im → q.value env w = .ok a ∧
    ∃ im', ReverseOnly im im' ∧ Changed w (q.exec env w) c (tables w.disk c) im'

namespace EditsReverse

variable {α β : Type} {env : Env} {c : String} {w : Database} {im : IndexManager}

protected theorem pure (env : Env) (c : String) (a : α) : EditsReverse env c (pure a) a :=
  fun _ im him => ⟨rfl, im, ReverseOnly.refl im, Changed.refl him⟩

protected theorem bind {p : EngineM α} {a : α} {q : α → EngineM β} {b : β}
    (hp : EditsReverse env c p a) (hq : EditsReverse env c (q a) b) :
    EditsReverse env c (p >>= q) b := by
  intro w im him
  obtain ⟨hok, im', hrev, hchanged⟩ := hp w im him
  obtain ⟨hok', im'', hrev', hchanged'⟩ := hq (p.exec env w) im' hchanged.get?_self
  rw [hchanged.table_self] at hchanged'
  rw [Prog.value_bind_ok hok, Prog.exec_bind_ok hok]
  exact ⟨hok', im'', hrev.trans hrev', hchanged.trans hchanged'⟩

protected theorem forM {β : Type} {f : β → EngineM Unit} {l : List β}
    (hf : ∀ b ∈ l, EditsReverse env c (f b) ()) : EditsReverse env c (l.forM f) () := by
  induction l with
  | nil => exact EditsReverse.pure env c ()
  | cons b l ih =>
      exact (hf b List.mem_cons_self).bind (ih fun b' hb' => hf b' (List.mem_cons_of_mem _ hb'))

/-- A write of the engine with such a program after it. -/
theorem after_write {q : EngineM α} {a : α} (op : WriteOp)
    (hq : EditsReverse env op.collection q a) (hw : Serving w)
    (him : w.mem.get? op.collection = some im) :
    let p := op.direct >>= fun _ => q
    let t := tables w.disk op.collection
    p.run env w = ⟨.error (LockManager.timeoutError env .exclusive), w.mem, []⟩ ∨
      p.value env w = .ok a ∧ ∃ im', ReverseOnly (op.newIndexes t im) im' ∧
        Changed w (p.exec env w) op.collection (t.set op.docId op.line.slot) im' := by
  intro p t
  obtain hrun | ⟨hvalue, hperform⟩ := perform_cases (.write op) env hw him
  · exact Or.inl (Prog.run_bind_error hrun)
  · have hok : op.direct.value env w = .ok () := hvalue
    have hchanged : Changed w (op.direct.exec env w) op.collection (t.set op.docId op.line.slot)
        (op.newIndexes t im) := hperform
    obtain ⟨hok', im', hrev, hchanged'⟩ := hq (op.direct.exec env w) (op.newIndexes t im)
      hchanged.get?_self
    rw [hchanged.table_self] at hchanged'
    rw [Prog.value_bind_ok hok, Prog.exec_bind_ok hok]
    exact Or.inr ⟨hok', im', hrev, hchanged.trans hchanged'⟩

end EditsReverse

namespace SchemaCollection

variable {self : SchemaCollection} {env : Env} {w : Database} {im : IndexManager}
  {document : Doc}

/-! ### The parts of a call -/

theorem readOnly_extractOrGenerateId : Prog.ReadOnly (self.extractOrGenerateId document) := by
  refine Prog.readOnly_env.bind fun env => ?_
  rcases self.pkField.bind document.get? with _ | key <;> exact Prog.readOnly_pure _

theorem readOnly_checkChild : Prog.ReadOnly (self.checkChild document) :=
  Prog.readOnly_forM fun _ _ => ReferentialIntegrityChecker.readOnly_checkChildInsert

theorem editsReverse_editFkReverse {edit : String → StoreM IndexManager Unit}
    (hedit : ∀ parentId im disk, ∃ im', ReverseOnly im im' ∧
      (edit parentId).run env ⟨im, disk⟩ = ⟨.ok (), im', im'.saveWrites⟩)
    (document : Doc) (fieldName : String) :
    EditsReverse env self.name (self.editFkReverse edit document fieldName) () := by
  intro w im him
  rw [editFkReverse]
  split
  · exact EditsReverse.pure env self.name () w im him
  · obtain ⟨im', hreverse, hrun⟩ := hedit (document.get fieldName).toStr im w.disk
    have hturn : (Prog.getMem >>= fun registry : Registry =>
        match registry.get? self.name with
        | none => (pure () : EngineM Unit)
        | some _ => indexes self.name (edit (document.get fieldName).toStr)).run env w =
        ⟨.ok (), w.mem.set self.name im', im'.saveWrites⟩ := by
      rw [Prog.run_bind_read (Prog.run_getMem env w), him]
      exact Prog.run_focus him hrun
    exact ⟨congrArg Outcome.result hturn, im', hreverse, changed_of_save hturn⟩

theorem editsReverse_registerFkReverse (env : Env) (docId : String) (document : Doc) :
    EditsReverse env self.name (self.registerFkReverse docId document) () := by
  apply EditsReverse.forM
  intro fieldName _
  apply editsReverse_editFkReverse
  exact fun parentId im _ => ⟨_, ⟨im.reverse.add parentId docId, rfl⟩, rfl⟩

theorem editsReverse_unregisterFkReverse (env : Env) (docId : String) (document : Doc) :
    EditsReverse env self.name (self.unregisterFkReverse docId document) () := by
  apply EditsReverse.forM
  intro fieldName _
  apply editsReverse_editFkReverse
  exact fun parentId im _ => ⟨_, ⟨im.reverse.remove parentId docId, rfl⟩, rfl⟩

/-- The loop of `delete` does nothing. -/
theorem readOnly_pass (checkers : List ReferentialIntegrityChecker) :
    Prog.ReadOnly (checkers.forM fun _ => pure () : EngineM Unit) :=
  Prog.readOnly_forM fun _ _ => Prog.readOnly_pure _

theorem editsReverse_afterDelete (env : Env) (docId : String) (doc : Option Doc) :
    EditsReverse env self.name (match doc with
      | none => pure ()
      | some doc => self.unregisterFkReverse docId doc) () := by
  cases doc with
  | none => exact EditsReverse.pure env _ ()
  | some doc => exact editsReverse_unregisterFkReverse env docId doc

/-- What raises has not got a lock. -/
def LockErrorsOnly {α : Type} (env : Env) (o : Outcome PyErr Registry DiskWrite α) : Prop :=
  ∀ e, o.result = .error e → ∃ mode, e = LockManager.timeoutError env mode

/-- A delete raises only where it does not get a lock. -/
theorem lockErrorsOnly_delete (hw : Serving w) (him : w.mem.get? self.name = some im)
    (docId : String) : LockErrorsOnly env ((self.delete docId).run env w) := by
  refine (readOnly_pass _).bind_rule (fun e he => ?_) fun _ _ => ?_
  · have hok : (self.fkCheckers.values.forM fun _ => (pure () : EngineM Unit)).value env w =
        .ok () := (Prog.value_forM_of_readOnly fun _ _ => Prog.readOnly_pure _).mpr fun _ _ => rfl
    rw [hok] at he
    cases he
  refine (readOnly_engine_get _ _).bind_rule (fun e he => ?_) fun doc _ => ?_
  · rintro e ⟨⟩
    exact ⟨_, (get_error hw (OrdDict.mem_keys_of_get? him) he).2⟩
  · intro e he
    obtain hrun | ⟨hok, -⟩ := EditsReverse.after_write (.delete self.name docId)
      (editsReverse_afterDelete env docId doc) hw him
    · exact ⟨_, Except.error.inj (he.symm.trans (congrArg Outcome.result hrun))⟩
    · cases he.symm.trans hok

/-! ### A whole call -/

/-- The writes of the engine that the checks of a call let through. -/
inductive Admits (self : SchemaCollection) (env : Env) (w : Database) :
    SchemaCall → WriteOp → Prop
  | insert {document validated : Doc} {docId : String}
      (hvalid : self.model.dump document = .ok validated)
      (hid : (self.extractOrGenerateId validated).value env w = .ok docId)
      (hunique : (self.uniqueChecker.checkInsert validated).value env w = .ok ())
      (hchild : (self.checkChild validated).value env w = .ok ()) :
      Admits self env w (.insert document) (.insert self.name docId validated)
  | update {docId : String} {document validated : Doc}
      (hvalid : self.model.dump document = .ok validated)
      (hlive : (tables w.disk self.name).get docId ≠ none)
      (hunique : (self.uniqueChecker.checkUpdate docId validated).value env w = .ok ())
      (hchild : (self.checkChild validated).value env w = .ok ()) :
      Admits self env w (.update docId document) (.update self.name docId validated)
  | delete (docId : String) : Admits self env w (.delete docId) (.delete self.name docId)

/-- What is known of the document of an admitted insert or update: it was
validated, the ids found with its unique values are its own, and its references
were found. -/
structure CheckedDocument (sc : SchemaCollection) (env : Env) (w : Database) (op : WriteOp)
    (validated : Doc) : Prop where
  valid : ∃ document, sc.model.dump document = .ok validated
  document : op.document = some validated
  line : op.line = Record.ofDoc op.docId validated
  unique : ∃ conflict, (sc.uniqueChecker.checkFields validated conflict).value env w = .ok () ∧
    ∀ existing, conflict existing = none → ∀ eid ∈ existing, eid = op.docId
  child : (sc.checkChild validated).value env w = .ok ()

/-- An admitted write is a delete, or it writes a checked document. -/
theorem Admits.delete_or_document {request : SchemaCall} {op : WriteOp}
    (h : self.Admits env w request op) :
    (∃ docId, request = .delete docId ∧ op = .delete self.name docId) ∨
      ∃ validated, CheckedDocument self env w op validated := by
  cases h with
  | insert hvalid hid hunique hchild =>
      refine Or.inr ⟨_, ⟨_, hvalid⟩, rfl, rfl,
        ⟨_, hunique, fun existing hnone eid heid => ?_⟩, hchild⟩
      rw [UniqueConstraintChecker.insertConflict_eq_none.mp hnone] at heid
      cases heid
  | update hvalid hlive hunique hchild =>
      refine Or.inr ⟨_, ⟨_, hvalid⟩, rfl, rfl, ⟨_, hunique, fun existing hnone => ?_⟩, hchild⟩
      exact UniqueConstraintChecker.updateConflict_eq_none.mp hnone
  | delete docId => exact Or.inl ⟨docId, rfl, rfl⟩

/-- The line of a checked document is live, and it reads like the document. -/
theorem CheckedDocument.slot_line (hmodel : self.model.JsonNative) {op : WriteOp} {validated : Doc}
    (h : CheckedDocument self env w op validated) :
    op.line.slot = some op.line ∧ ∀ fieldName ∈ self.model.modelFields.keys,
      Doc.get op.line.doc fieldName = validated.get fieldName := by
  obtain ⟨d, hvalid⟩ := h.valid
  obtain ⟨hnative, hdeleted⟩ := hmodel.clean hvalid
  obtain ⟨hdoc, hslot⟩ := slot_ofDoc hnative hdeleted op.docId
  rw [h.line]
  refine ⟨hslot, fun fieldName hfield => ?_⟩
  rw [hdoc, Doc.get, withId, OrdDict.get?_set_of_ne _ _ (hmodel.field_ne hfield).1]
  rfl

/-- Only clean documents are admitted. -/
theorem Admits.clean (hmodel : self.model.JsonNative) {request : SchemaCall} {op : WriteOp}
    (h : self.Admits env w request op) : op.Clean := by
  obtain ⟨docId, -, rfl⟩ | ⟨validated, hchecked⟩ := h.delete_or_document
  · rintro _ ⟨⟩
  · intro v hv
    obtain ⟨d, hvalid⟩ := hchecked.valid
    rw [hchecked.document] at hv
    cases hv
    exact hmodel.clean hvalid

end SchemaCollection

/-! ### Wiring -/

/-- The collection a foreign key refers to: the class name in lower case, in the
plural. -/
def TargetModel.collectionName (target : TargetModel) : String := target.lowerName ++ "s"

/-- The checker of one foreign key. -/
def CollectionManager.fkChecker (childColName fkField : String) (fk : ForeignKeyMeta) :
    ReferentialIntegrityChecker where
  parentCollection := fk.targetModel.collectionName
  parentPk := fk.targetModel.primaryKey.getD "id"
  childCollection := childColName
  fkField := fkField
  onDelete := fk.onDelete

def CollectionManager.buildFkCheckers (childColName : String) (childModel : Model) :
    OrdDict String ReferentialIntegrityChecker :=
  OrdDict.ofList (childModel.getForeignKeys.entries.map fun e =>
    (e.1, fkChecker childColName e.1 e.2))

/-- The collection as the manager registers it. -/
def CollectionManager.schemaCollection (name : String) (model : Model) : SchemaCollection :=
  ⟨name, model, buildFkCheckers name model⟩

/-- Every foreign key has its checker. -/
theorem CollectionManager.mem_buildFkCheckers {name fieldName : String} {model : Model}
    {fk : ForeignKeyMeta} (h : model.getForeignKeys.get? fieldName = some fk) :
    fkChecker name fieldName fk ∈ (buildFkCheckers name model).values := by
  have hnodup : ((model.getForeignKeys.entries.map fun e =>
      (e.1, fkChecker name e.1 e.2)).map Prod.fst).Nodup := by
    simpa [Function.comp_def] using model.getForeignKeys.nodup
  rw [buildFkCheckers, OrdDict.values, OrdDict.entries_ofList_of_nodup hnodup, List.map_map]
  exact List.mem_map.mpr ⟨(fieldName, fk), OrdDict.mem_entries_iff.mpr h, rfl⟩

end JsonpySql
