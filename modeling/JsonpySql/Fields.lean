/-
JsonpySql/Fields.lean

Models and the metadata of their fields, and the validation of documents.

Parsing a document and dumping it again is Pydantic's work; a model carries it
as a function (`Model.dump`).  What the schema layer relies on is
`Model.JsonNative`: a validated document is JSON-native and has the model's
fields for keys, and no field starts with an underscore, so a document never
meets the keys `_id` and `_deleted` of the storage layer.
-/
import JsonpySql.Disk

namespace JsonpySql

/-! ### Metadata -/

/-- The arguments of `field()` the engine looks at. -/
structure FieldMeta where
  primaryKey : Bool
  index : Bool
  unique : Bool
deriving DecidableEq

inductive OnDelete
  | restrict | cascade | setNull
deriving DecidableEq

/-- The model a foreign key refers to: its class name in lower case, and its
primary-key field. -/
structure TargetModel where
  lowerName : String
  primaryKey : Option String
deriving DecidableEq

structure ForeignKeyMeta where
  targetModel : TargetModel
  onDelete : OnDelete
deriving DecidableEq

/-- One item of the metadata of a field; `other` is Pydantic's own. -/
inductive MetaItem
  | field (fm : FieldMeta)
  | foreignKey (fk : ForeignKeyMeta)
  | other
deriving DecidableEq

/-- The metadata of a field, in order. -/
structure FieldInfo where
  metadata : List MetaItem
deriving DecidableEq

/-- How parsing and dumping a document fails: with Pydantic's own error, or
with what a validator of the user raises. -/
inductive DumpError
  | invalid (msg : String)
  | raised (e : PyErr)

/-- A Pydantic model: its class name, its fields in order, and
`model_validate(document).model_dump(mode="json")`. -/
structure Model where
  name : String
  modelFields : OrdDict String FieldInfo
  dump : Doc → Except DumpError Doc

/-! ### Introspection -/

def getFieldMeta (info : FieldInfo) : Option FieldMeta :=
  info.metadata.findSome? fun item =>
    match item with
    | .field fm => some fm
    | _ => none

def getFkMeta (info : FieldInfo) : Option ForeignKeyMeta :=
  info.metadata.findSome? fun item =>
    match item with
    | .foreignKey fk => some fk
    | _ => none

namespace Model

/-- The names of the fields whose metadata satisfies `p`. -/
def fieldsWith (p : FieldMeta → Bool) (model : Model) : List String :=
  (model.modelFields.entries.filter fun e => (getFieldMeta e.2).any p).map Prod.fst

/-- The field marked as primary key, or else the one called `id`. -/
def getPrimaryKeyField (model : Model) : Option String :=
  match model.fieldsWith FieldMeta.primaryKey with
  | name :: _ => some name
  | [] => if "id" ∈ model.modelFields.keys then some "id" else none

def getIndexedFields (model : Model) : List String :=
  model.fieldsWith fun fm => fm.index || fm.unique

def getUniqueFields (model : Model) : List String := model.fieldsWith FieldMeta.unique

/-- The foreign-key fields with their metadata. -/
def getForeignKeys (model : Model) : OrdDict String ForeignKeyMeta :=
  OrdDict.ofList (model.modelFields.entries.filterMap fun e =>
    (getFkMeta e.2).map fun fk => (e.1, fk))

theorem mem_keys_of_mem_fieldsWith {model : Model} {p : FieldMeta → Bool} {name : String}
    (h : name ∈ model.fieldsWith p) : name ∈ model.modelFields.keys := by
  obtain ⟨e, he, rfl⟩ := List.mem_map.mp h
  exact List.mem_map_of_mem (List.mem_of_mem_filter he)

theorem mem_keys_of_mem_getForeignKeys {model : Model} {name : String}
    (h : name ∈ model.getForeignKeys.keys) : name ∈ model.modelFields.keys := by
  obtain ⟨e, he, rfl⟩ := List.mem_map.mp (OrdDict.mem_keys_ofList.mp h)
  obtain ⟨e₀, he₀, hfk⟩ := List.mem_filterMap.mp he
  obtain ⟨fk, -, rfl⟩ := Option.map_eq_some_iff.mp hfk
  exact List.mem_map_of_mem he₀

end Model

/-! ### Validation -/

/-- Validate and coerce a document. -/
def Validator.validate {σ : Type} (model : Model) (document : Doc) : StoreM σ Doc :=
  match model.dump document with
  | .ok validated => pure validated
  | .error (.invalid exc) =>
      Prog.raise (.validationError
        ("Document failed validation against " ++ model.name ++ ": " ++ exc))
  -- only Pydantic's own error is translated
  | .error (.raised e) => Prog.raise e

/-- A name that does not start with an underscore. -/
def IsPublic (name : String) : Prop := name.toList.head? ≠ some '_'

instance (name : String) : Decidable (IsPublic name) := inferInstanceAs (Decidable (_ ≠ _))

/-- What the schema layer relies on Pydantic for. -/
structure Model.JsonNative (model : Model) : Prop where
  native : ∀ d v, model.dump d = .ok v → v.Native
  keys : ∀ d v, model.dump d = .ok v → ∀ k ∈ v.keys, k ∈ model.modelFields.keys
  isPublic : ∀ k ∈ model.modelFields.keys, IsPublic k

namespace Model.JsonNative

variable {model : Model} {d v : Doc}

/-- A field is not one of the two keys of the storage layer. -/
theorem field_ne (h : model.JsonNative) {name : String} (hname : name ∈ model.modelFields.keys) :
    name ≠ "_id" ∧ name ≠ "_deleted" := by
  have hpublic := h.isPublic name hname
  constructor
  · rintro rfl
    exact hpublic rfl
  · rintro rfl
    exact hpublic rfl

/-- Validated documents are clean. -/
theorem clean (h : model.JsonNative) (hv : model.dump d = .ok v) :
    v.Native ∧ v.get? "_deleted" = none := by
  refine ⟨h.native d v hv, OrdDict.get?_eq_none_iff.mpr fun hmem => ?_⟩
  exact (h.field_ne (h.keys d v hv _ hmem)).2 rfl

end Model.JsonNative

namespace Validator

variable {σ : Type} {model : Model} {document validated : Doc}

theorem readOnly_validate (model : Model) (document : Doc) :
    (validate model document : StoreM σ Doc).ReadOnly := by
  rw [validate]
  split
  · exact Prog.readOnly_pure _
  · exact Prog.readOnly_raise _
  · exact Prog.readOnly_raise _

theorem value_validate {env : Env} {w : World σ Disk} :
    (validate model document).value env w = .ok validated ↔
      model.dump document = .ok validated := by
  rw [validate]
  rcases model.dump document with (msg | e) | v <;> simp [Prog.value]

end Validator

/-! ### A model to try statements on -/

/-- `isinstance(v, str)`. -/
def isText : PyVal → Bool
  | .str _ => true
  | _ => false

/-- A model whose fields are required strings; other keys are dropped. -/
def textModel (name : String) (fields : OrdDict String FieldInfo) : Model where
  name := name
  modelFields := fields
  dump d :=
    if fields.keys.all fun k => isText (d.get k) then
      .ok (OrdDict.ofList (fields.keys.map fun k => (k, .str (d.get k).toStr)))
    else .error (.invalid "Input should be a valid string")

theorem dump_textModel {name : String} {fields : OrdDict String FieldInfo} {d v : Doc}
    (h : (textModel name fields).dump d = .ok v) :
    v = OrdDict.ofList (fields.keys.map fun k => (k, .str (d.get k).toStr)) := by
  simp only [textModel] at h
  split at h
  · exact (Except.ok.inj h).symm
  · cases h

theorem jsonNative_textModel (name : String) {fields : OrdDict String FieldInfo}
    (h : ∀ k ∈ fields.keys, IsPublic k) : (textModel name fields).JsonNative where
  native d v hv := by
    rw [dump_textModel hv, Doc.Native, Doc.viaJson, OrdDict.mapValues_ofList]
    simp [Function.comp_def]
  keys d v hv k hk := by
    rw [dump_textModel hv, OrdDict.mem_keys_ofList] at hk
    show k ∈ fields.keys
    simpa using hk
  isPublic := h

/-- What a dumped document reads as: strings, and `None` for other keys. -/
theorem get_dump_textModel {name : String} {fields : OrdDict String FieldInfo} {d v : Doc}
    (h : (textModel name fields).dump d = .ok v) (k : String) :
    v.get k = .none ∨ ∃ s, v.get k = .str s := by
  rcases hk : v.get? k with _ | x
  · exact Or.inl (by rw [Doc.get, hk]; rfl)
  · have hmem := OrdDict.mem_entries_iff.mpr hk
    rw [dump_textModel h, OrdDict.entries_ofList_of_nodup (by
      simpa [Function.comp_def] using fields.keys_nodup)] at hmem
    obtain ⟨k', -, hk'⟩ := List.mem_map.mp hmem
    obtain ⟨rfl, rfl⟩ := Prod.mk.inj hk'
    exact Or.inr ⟨_, by rw [Doc.get, hk]; rfl⟩

end JsonpySql
