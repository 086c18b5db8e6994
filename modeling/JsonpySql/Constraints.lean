/-
JsonpySql/Constraints.lean

The checks the schema layer makes before it writes.

A check only reads.  It asks the engine, so it also raises what the engine
raises: an unknown collection, or a lock another client holds.  What a check
that returns has seen is `lookup_of_checkFields` for unique fields, and
`get_of_checkChildInsert` for foreign keys.
-/
import JsonpySql.Effects
import JsonpySql.Fields

namespace JsonpySql

open StorageEngine

/-! ### Unique fields -/

structure UniqueConstraintChecker where
  collection : String
  uniqueFields : List String

namespace UniqueConstraintChecker

/-- Raise where there is a problem with a value. -/
def report (self : UniqueConstraintChecker) (fieldName : String) (value : PyVal) :
    Option String → EngineM Unit
  | none => pure ()
  | some problem =>
      Prog.raise (.uniqueConstraintError
        ("Unique constraint violated on " ++ strRepr self.collection ++ "." ++
          strRepr fieldName ++ ": value " ++ value.repr ++ problem))

/-- One turn of the loops below: `conflict` says what is wrong with the ids that
have the value, if anything is. -/
def checkField (self : UniqueConstraintChecker) (document : Doc)
    (conflict : List String → Option String) (fieldName : String) : EngineM Unit :=
  if document.get fieldName = .none then pure ()
  else do
    let existing ← StorageEngine.lookup self.collection fieldName (document.get fieldName)
    self.report fieldName (document.get fieldName) (conflict existing)

/-- Look up every unique value of a document. -/
def checkFields (self : UniqueConstraintChecker) (document : Doc)
    (conflict : List String → Option String) : EngineM Unit :=
  self.uniqueFields.forM (self.checkField document conflict)

/-- Any id is a conflict. -/
def insertConflict (existing : List String) : Option String :=
  if existing = [] then none else some " already exists."

/-- Any id but the document's own is a conflict. -/
def updateConflict (docId : String) (existing : List String) : Option String :=
  match existing.filter (· ≠ docId) with
  | [] => none
  -- the loop raises at the first id that is not the document's
  | eid :: _ => some (" is owned by document " ++ strRepr eid ++ ".")

def checkInsert (self : UniqueConstraintChecker) (document : Doc) : EngineM Unit :=
  self.checkFields document insertConflict

def checkUpdate (self : UniqueConstraintChecker) (docId : String) (document : Doc) :
    EngineM Unit :=
  self.checkFields document (updateConflict docId)

variable {self : UniqueConstraintChecker} {document : Doc} {conflict : List String → Option String}

theorem readOnly_report (fieldName : String) (value : PyVal) (problem : Option String) :
    Prog.ReadOnly (self.report fieldName value problem) := by
  cases problem with
  | none => exact Prog.readOnly_pure _
  | some problem => exact Prog.readOnly_raise _

theorem readOnly_checkField (fieldName : String) :
    Prog.ReadOnly (self.checkField document conflict fieldName) := by
  rw [checkField]
  split
  · exact Prog.readOnly_pure _
  · exact (readOnly_lookup _ _ _).bind fun _ => readOnly_report _ _ _

theorem readOnly_checkFields : Prog.ReadOnly (self.checkFields document conflict) :=
  Prog.readOnly_forM fun fieldName _ => readOnly_checkField fieldName

/-- A check that returns has looked up every unique value and found no
conflict. -/
theorem lookup_of_checkFields {env : Env} {w : Database}
    (h : (self.checkFields document conflict).value env w = .ok ()) {fieldName : String}
    (hfield : fieldName ∈ self.uniqueFields) (hvalue : document.get fieldName ≠ .none) :
    ∃ existing, (StorageEngine.lookup self.collection fieldName
        (document.get fieldName)).value env w = .ok existing ∧ conflict existing = none := by
  have hturn := (Prog.value_forM_of_readOnly fun fieldName _ => readOnly_checkField fieldName).mp h
    fieldName hfield
  rw [checkField, if_neg hvalue, (readOnly_lookup _ _ _).value_bind_eq_ok] at hturn
  obtain ⟨existing, hexisting, hreport⟩ := hturn
  refine ⟨existing, hexisting, ?_⟩
  rcases hproblem : conflict existing with _ | problem
  · rfl
  · rw [hproblem] at hreport
    cases hreport

theorem insertConflict_eq_none {existing : List String} :
    insertConflict existing = none ↔ existing = [] := by
  rw [insertConflict]
  split <;> simp [*]

theorem updateConflict_eq_none {docId : String} {existing : List String} :
    updateConflict docId existing = none ↔ ∀ eid ∈ existing, eid = docId := by
  rw [updateConflict]
  have hfilter : existing.filter (· ≠ docId) = [] ↔ ∀ eid ∈ existing, eid = docId := by simp
  split
  · next hnil => exact iff_of_true rfl (hfilter.mp hnil)
  · next eid rest hcons =>
      refine iff_of_false (by simp) fun hall => ?_
      rw [hfilter.mpr hall] at hcons
      cases hcons

end UniqueConstraintChecker

/-! ### Foreign keys -/

structure ReferentialIntegrityChecker where
  parentCollection : String
  parentPk : String
  childCollection : String
  fkField : String
  onDelete : OnDelete
deriving DecidableEq

namespace ReferentialIntegrityChecker

/-- Raise unless the referenced document is there. -/
def assertParentExists (self : ReferentialIntegrityChecker) (parentId : PyVal) : EngineM Unit := do
  let parentDoc ← StorageEngine.get self.parentCollection parentId.toStr
  match parentDoc with
  | some _ => pure ()
  | none =>
      Prog.raise (.referentialIntegrityError
        ("Foreign-key constraint failed on " ++ strRepr self.childCollection ++ "." ++
          strRepr self.fkField ++ ": parent " ++ strRepr self.parentCollection ++ " document " ++
          parentId.repr ++ " not found."))

/-- Check the reference of a child document; `None` refers to nothing. -/
def checkChildInsert (self : ReferentialIntegrityChecker) (childDocument : Doc) : EngineM Unit :=
  if childDocument.get self.fkField = .none then pure ()
  else self.assertParentExists (childDocument.get self.fkField)

/-- The ids the reverse index of the child collection lists under a parent. -/
def children (self : ReferentialIntegrityChecker) (registry : Registry) (parentId : String) :
    List String :=
  match registry.get? self.childCollection with
  | some im => im.getChildren parentId
  | none => []

/-- Enforce `restrict` before a parent document is deleted. -/
def checkParentDelete (self : ReferentialIntegrityChecker) (parentId : String) : EngineM Unit := do
  let registry ← Prog.getMem
  let children := self.children registry parentId
  if children = [] then pure ()
  else if self.onDelete = .restrict then
    Prog.raise (.referentialIntegrityError
      ("Cannot delete " ++ strRepr self.parentCollection ++ " document " ++ strRepr parentId ++
        ": " ++ toString children.length ++ " child document(s) exist in " ++
        strRepr self.childCollection ++ " (on_delete='restrict')."))
  else pure ()

variable {self : ReferentialIntegrityChecker} {childDocument : Doc}

theorem readOnly_checkChildInsert : Prog.ReadOnly (self.checkChildInsert childDocument) := by
  rw [checkChildInsert]
  split
  · exact Prog.readOnly_pure _
  · refine (readOnly_engine_get _ _).bind fun parentDoc => ?_
    cases parentDoc with
    | none => exact Prog.readOnly_raise _
    | some d => exact Prog.readOnly_pure _

/-- A check of a reference does not blame a unique field. -/
theorem checkChildInsert_ne_uniqueConstraintError {env : Env} {w : Database} (hw : Serving w)
    (msg : String) :
    (self.checkChildInsert childDocument).value env w ≠ .error (.uniqueConstraintError msg) := by
  rw [checkChildInsert]
  split
  · nofun
  · rw [assertParentExists]
    refine (readOnly_engine_get _ _).bind_rule (P := fun o =>
      o.result ≠ .error (.uniqueConstraintError msg)) (fun e he => ?_) fun parentDoc _ => ?_
    -- the parent was not read
    · rintro ⟨⟩
      rcases Decidable.em (self.parentCollection ∈ w.mem.keys) with hc | hc
      · cases (get_error hw hc he).2
      · cases (value_get_of_notMem hc _).symm.trans he
    · cases parentDoc <;> nofun

/-- Before a delete only `restrict` is enforced, and only for the children the
reverse index lists. -/
theorem value_checkParentDelete {env : Env} {w : Database} {parentId : String} :
    (self.checkParentDelete parentId).value env w = .ok () ↔
      (self.onDelete = .restrict → self.children w.mem parentId = []) := by
  rw [Prog.value, checkParentDelete, Prog.run_bind_read (Prog.run_getMem env w)]
  -- without children there is nothing to enforce, and `cascade` and `set_null` do nothing
  rcases Decidable.em (self.children w.mem parentId = []) with hnone | hsome
  · simp [hnone]
  · rcases Decidable.em (self.onDelete = .restrict) with hrestrict | hother
    · simp [hsome, hrestrict]
    · simp [hsome, hother]

/-- A check that returns has found the document a reference names. -/
theorem get_of_checkChildInsert {env : Env} {w : Database}
    (h : (self.checkChildInsert childDocument).value env w = .ok ())
    (hvalue : childDocument.get self.fkField ≠ .none) :
    ∃ d, (StorageEngine.get self.parentCollection (childDocument.get self.fkField).toStr).value
      env w = .ok (some d) := by
  rw [checkChildInsert, if_neg hvalue, assertParentExists,
    (readOnly_engine_get _ _).value_bind_eq_ok] at h
  obtain ⟨_ | d, hget, hmatch⟩ := h
  · cases hmatch
  · exact ⟨d, hget⟩

end ReferentialIntegrityChecker

end JsonpySql
