/-
JsonpySql/UniqueVerdicts.lean

When `UniqueConstraintError` is right.

A unique value is looked up before a write, and whatever the lookup finds is a
conflict.  A conflict is never missed, since the indexes miss no live document
(`UniqueFields`).  One that is none is reported where an index lists more than
the live documents with the value: an entry that an insert has left behind when
it took the id of a live document, or a document without a value, which is filed
under the string `None` (`raisesUnique_checkFields_iff`).
-/
import JsonpySql.CommittedIndexes
import JsonpySql.CrashedWrites
import JsonpySql.LiveInserts
import JsonpySql.UnindexedLookups

namespace JsonpySql

open StorageEngine SchemaCollection

/-! ### Verdicts -/

/-- The call raises `UniqueConstraintError`. -/
def RaisesUnique {α : Type} (result : Except PyErr α) : Prop :=
  ∃ msg, result = .error (.uniqueConstraintError msg)

/-- One of these documents is live and has the same non-null value in a unique
field. -/
def Conflicts (C : SchemaCollection) (w : Database) (rival : String → Prop) (validated : Doc) :
    Prop :=
  ∃ fieldName ∈ C.model.getUniqueFields, validated.get fieldName ≠ .none ∧
    ∃ i r, rival i ∧ (tables w.disk C.name).liveRow i = some r ∧
      Doc.get r.doc fieldName = validated.get fieldName

/-- The field has an index of its own. -/
def HasIndex (specs : List IndexSpec) (fieldName : String) : Prop :=
  ∃ spec ∈ specs, spec.fields = [fieldName]

/-- The document has the string `None` in an indexed unique field in which one of
these documents has no value. -/
def MeetsNull (C : SchemaCollection) (specs : List IndexSpec) (w : Database)
    (rival : String → Prop) (validated : Doc) : Prop :=
  ∃ fieldName ∈ C.model.getUniqueFields, HasIndex specs fieldName ∧
    validated.get fieldName = .str "None" ∧
    ∃ i r, rival i ∧ (tables w.disk C.name).liveRow i = some r ∧
      Doc.get r.doc fieldName = .none

/-- `insert` raises `UniqueConstraintError` just where a live document has one of
the unique values. -/
def ExactInsert (C : SchemaCollection) (env : Env) (w : Database) (document validated : Doc) :
    Prop :=
  RaisesUnique ((C.insert document).value env w) ↔ Conflicts C w (fun _ => True) validated

/-- `update` raises `UniqueConstraintError` just where some other live document
does. -/
def ExactUpdate (C : SchemaCollection) (env : Env) (w : Database) (docId : String)
    (document validated : Doc) : Prop :=
  RaisesUnique ((C.update docId document).value env w) ↔ Conflicts C w (· ≠ docId) validated

/-! ### The invariant -/

/-- The live unique values are strings or `None`, and the indexes on unique
fields list just the live documents. -/
structure UniqueIndexes (C : SchemaCollection) (im : IndexManager) (t : Table) : Prop where
  strings : ∀ i r, t.liveRow i = some r → ∀ fieldName ∈ C.model.getUniqueFields,
    Doc.get r.doc fieldName = .none ∨ ∃ s, Doc.get r.doc fieldName = .str s
  lists : ∀ e ∈ im.indexes, ∀ fieldName ∈ C.model.getUniqueFields, e.1.fields = [fieldName] →
    InvertedIndex.Lists e.2 (IndexManager.keyOf e.1 t)

namespace UniqueIndexes

variable {C : SchemaCollection} {im : IndexManager} {t : Table}

theorem of_exact (hexact : im.Exact t) (hstrings : ∀ i r, t.liveRow i = some r →
    ∀ fieldName ∈ C.model.getUniqueFields,
      Doc.get r.doc fieldName = .none ∨ ∃ s, Doc.get r.doc fieldName = .str s) :
    UniqueIndexes C im t :=
  ⟨hstrings, fun e he _ _ _ => (hexact e he).lists⟩

/-- A rebuild keeps it. -/
theorem rebuild (h : UniqueIndexes C im t) (ht : t.WF) :
    UniqueIndexes C (im.rebuild (DocumentStore.rows t)) t.live := by
  apply of_exact
  · exact (im.exact_rebuild ht).congr fun i => (t.liveRow_live i).symm
  · intro i r hr
    rw [Table.liveRow_live] at hr
    exact h.strings i r hr

/-- What a lookup of a string finds. -/
theorem mem_lookupIn (h : UniqueIndexes C im t) (ht : t.WF) {fieldName s : String}
    (hfield : fieldName ∈ C.model.getUniqueFields) {i : String} :
    i ∈ lookupIn im t fieldName (.str s) ↔ ∃ r, t.liveRow i = some r ∧
      (Doc.get r.doc fieldName = .str s ∨
        HasIndex im.specs fieldName ∧ s = "None" ∧ Doc.get r.doc fieldName = .none) := by
  rcases hfind : im.indexes.find? fun e => e.1.fields = [fieldName] with _ | e
  · -- no index: the values are compared
    have hplain : ¬HasIndex im.specs fieldName := by
      rintro ⟨_, hspec, hfields⟩
      obtain ⟨e, he, rfl⟩ := List.mem_map.mp hspec
      have hnot := List.find?_eq_none.mp hfind e he
      exact hnot (decide_eq_true hfields)
    rw [IndexManager.mem_lookupIn_unindexed ht hplain]
    apply exists_congr
    intro r
    apply and_congr_right
    intro hr
    obtain hnone | ⟨s', hs'⟩ := h.strings i r hr fieldName hfield
    · have hne : PyVal.none.eq (.str s) = false := rfl
      rw [hnone, hne]
      simp [hplain]
    · rw [hs', PyVal.eq_str]
      simp [hplain]
  · -- the first index on the field lists the keys
    obtain ⟨hhas, hlookup, he, hfields⟩ := IndexManager.lookup_of_find hfind (.str s)
    have hindex : HasIndex im.specs fieldName := ⟨e.1, List.mem_map_of_mem he, hfields⟩
    rw [lookupIn, if_pos hhas, hlookup, (h.lists e he fieldName hfield hfields).mem_ids,
      IndexManager.keyOf, Option.map_eq_some_iff]
    apply exists_congr
    intro r
    apply and_congr_right
    intro hr
    rw [IndexSpec.key_single hfields]
    obtain hnone | ⟨s', hs'⟩ := h.strings i r hr fieldName hfield
    · rw [hnone]
      show "None" = s ↔ _
      simp [hindex, eq_comm]
    · rw [hs']
      show s' = s ↔ _
      simp

end UniqueIndexes

/-! ### The checks -/

section Checks

variable {C : SchemaCollection} {env : Env} {w : Database} {im : IndexManager} {validated : Doc}
  {rival : String → Prop} {conflict : List String → Option String}

/-- One turn of the check, where lookups get their lock. -/
theorem value_checkField (hw : Serving w) (him : w.mem.get? C.name = some im)
    (hfree : LockManager.blocked env (jsonlPath C.name) .shared = false) (fieldName : String) :
    (C.uniqueChecker.checkField validated conflict fieldName).value env w =
      if validated.get fieldName = .none then .ok ()
      else (C.uniqueChecker.report fieldName (validated.get fieldName)
        (conflict (lookupIn im (tables w.disk C.name) fieldName
          (validated.get fieldName)))).value env w := by
  rw [UniqueConstraintChecker.checkField]
  split
  · rfl
  · exact (readOnly_lookup _ _ _).value_bind_of_ok
      (congrArg Outcome.result (run_lookup hw him (Or.inr hfree) _))

/-- **What the check of the unique fields blames**: a rival among the ids that a
lookup finds. -/
theorem raisesUnique_checkFields (hw : Serving w) (him : w.mem.get? C.name = some im)
    (hfree : LockManager.blocked env (jsonlPath C.name) .shared = false)
    (hconflict : ∀ existing, conflict existing = none ↔ ∀ i ∈ existing, ¬rival i) :
    RaisesUnique ((C.uniqueChecker.checkFields validated conflict).value env w) ↔
      ∃ fieldName ∈ C.model.getUniqueFields, validated.get fieldName ≠ .none ∧
        ∃ i ∈ lookupIn im (tables w.disk C.name) fieldName (validated.get fieldName),
          rival i := by
  have hread : ∀ fieldName ∈ C.model.getUniqueFields,
      Prog.ReadOnly (C.uniqueChecker.checkField validated conflict fieldName) :=
    fun fieldName _ => UniqueConstraintChecker.readOnly_checkField fieldName
  -- what a turn raises blames a rival
  have hturn : ∀ fieldName e,
      (C.uniqueChecker.checkField validated conflict fieldName).value env w = .error e →
        (∃ msg, e = .uniqueConstraintError msg) ∧ validated.get fieldName ≠ .none ∧
          ∃ i ∈ lookupIn im (tables w.disk C.name) fieldName (validated.get fieldName),
            rival i := by
    intro fieldName e he
    rw [value_checkField hw him hfree] at he
    split at he
    · cases he
    · next hsome =>
        rcases hproblem : conflict (lookupIn im (tables w.disk C.name) fieldName
          (validated.get fieldName)) with _ | problem
        · rw [hproblem] at he
          cases he
        · rw [hproblem] at he
          have hblamed := mt (hconflict _).mpr (hproblem ▸ Option.some_ne_none problem)
          push Not at hblamed
          exact ⟨⟨_, (Except.error.inj he).symm⟩, hsome, hblamed⟩
  constructor
  · rintro ⟨msg, he⟩
    obtain ⟨fieldName, hfield, he'⟩ := Prog.exists_of_value_forM_error hread he
    exact ⟨fieldName, hfield, (hturn fieldName _ he').2⟩
  · rintro ⟨fieldName, hfield, hsome, i, hi, hrival⟩
    rcases hv : (C.uniqueChecker.checkFields validated conflict).value env w with e | _
    · obtain ⟨fieldName', -, he⟩ := Prog.exists_of_value_forM_error hread hv
      obtain ⟨⟨msg, rfl⟩, -⟩ := hturn fieldName' e he
      exact ⟨msg, rfl⟩
    · -- the field has been looked up
      obtain ⟨existing, hlookup, hnone⟩ :=
        UniqueConstraintChecker.lookup_of_checkFields hv hfield hsome
      obtain rfl := lookup_of_ok hw him hlookup
      exact absurd hrival ((hconflict _).mp hnone i hi)

/-- Where the indexes list just the live documents, it blames a document with the
same value, or one that has none. -/
theorem raisesUnique_checkFields_iff (hw : Serving w) (him : w.mem.get? C.name = some im)
    (hindexes : UniqueIndexes C im (tables w.disk C.name))
    (hfree : LockManager.blocked env (jsonlPath C.name) .shared = false)
    (hconflict : ∀ existing, conflict existing = none ↔ ∀ i ∈ existing, ¬rival i)
    (hstrings : ∀ fieldName ∈ C.model.getUniqueFields,
      validated.get fieldName = .none ∨ ∃ s, validated.get fieldName = .str s) :
    RaisesUnique ((C.uniqueChecker.checkFields validated conflict).value env w) ↔
      Conflicts C w rival validated ∨ MeetsNull C im.specs w rival validated := by
  rw [raisesUnique_checkFields hw him hfree hconflict]
  constructor
  · rintro ⟨fieldName, hfield, hsome, i, hi, hrival⟩
    obtain ⟨s, hs⟩ := (hstrings fieldName hfield).resolve_left hsome
    rw [hs, hindexes.mem_lookupIn (tables_wf _ _) hfield] at hi
    obtain ⟨r, hr, hsame | ⟨hindex, rfl, hnull⟩⟩ := hi
    · exact Or.inl ⟨fieldName, hfield, hsome, i, r, hrival, hr, hsame.trans hs.symm⟩
    · exact Or.inr ⟨fieldName, hfield, hindex, hs, i, r, hrival, hr, hnull⟩
  · rintro (⟨fieldName, hfield, hsome, i, r, hrival, hr, hsame⟩ |
      ⟨fieldName, hfield, hindex, hs, i, r, hrival, hr, hnull⟩)
    · obtain ⟨s, hs⟩ := (hstrings fieldName hfield).resolve_left hsome
      refine ⟨fieldName, hfield, hsome, i, ?_, hrival⟩
      rw [hs, hindexes.mem_lookupIn (tables_wf _ _) hfield]
      exact ⟨r, hr, Or.inl (hsame.trans hs)⟩
    · refine ⟨fieldName, hfield, by simp [hs], i, ?_, hrival⟩
      rw [hs, hindexes.mem_lookupIn (tables_wf _ _) hfield]
      exact ⟨r, hr, Or.inr ⟨hindex, rfl, hnull⟩⟩

end Checks

/-! ### The calls -/

section Calls

variable {C : SchemaCollection} {env : Env} {w : Database} {im : IndexManager}
  {document validated : Doc}

/-- The checks of references do not raise it. -/
theorem not_raisesUnique_checkChild {α : Type} (hw : Serving w) {q : EngineM α}
    (hq : ¬RaisesUnique (q.value env w)) :
    ¬RaisesUnique ((C.checkChild validated >>= fun _ => q).value env w) := by
  rintro ⟨msg, he⟩
  rcases hchild : (C.checkChild validated).value env w with e | _
  · rw [Prog.value_bind_error hchild] at he
    obtain rfl := Except.error.inj he
    obtain ⟨checker, -, he'⟩ := Prog.exists_of_value_forM_error
      (fun _ _ => ReferentialIntegrityChecker.readOnly_checkChildInsert) hchild
    exact ReferentialIntegrityChecker.checkChildInsert_ne_uniqueConstraintError hw msg he'
  · rw [readOnly_checkChild.value_bind_of_ok hchild] at he
    exact hq ⟨msg, he⟩

/-- Nor does a write, which raises only where it does not get its lock. -/
theorem not_raisesUnique_write {α : Type} {q : EngineM α} {a : α} (op : WriteOp)
    (hq : EditsReverse env op.collection q a) (hw : Serving w)
    (him : w.mem.get? op.collection = some im) :
    ¬RaisesUnique ((op.direct >>= fun _ => q).value env w) := by
  rintro ⟨msg, he⟩
  obtain hrun | ⟨hok, -⟩ := EditsReverse.after_write op hq hw him
  · cases (congrArg Outcome.result hrun).symm.trans he
  · cases hok.symm.trans he

/-- `insert` raises it where the check of the unique fields does. -/
theorem raisesUnique_insert (hw : Serving w) (him : w.mem.get? C.name = some im)
    (hvalid : C.model.dump document = .ok validated) :
    RaisesUnique ((C.insert document).value env w) ↔
      RaisesUnique ((C.uniqueChecker.checkInsert validated).value env w) := by
  have hid : ∃ docId, (C.extractOrGenerateId validated).value env w = .ok docId := by
    rw [extractOrGenerateId, Prog.readOnly_env.value_bind_of_ok rfl]
    rcases C.pkField.bind validated.get? with _ | key
    · exact ⟨_, rfl⟩
    · exact ⟨_, rfl⟩
  obtain ⟨docId, hid⟩ := hid
  rw [SchemaCollection.insert, (Validator.readOnly_validate _ _).value_bind_of_ok
    (Validator.value_validate.mpr hvalid), readOnly_extractOrGenerateId.value_bind_of_ok hid]
  rcases hv : (C.uniqueChecker.checkInsert validated).value env w with e | _
  · rw [Prog.value_bind_error hv]
    simp only [RaisesUnique, Except.error.injEq]
  · have hread : Prog.ReadOnly (C.uniqueChecker.checkInsert validated) :=
      UniqueConstraintChecker.readOnly_checkFields
    rw [hread.value_bind_of_ok hv]
    refine iff_of_false ?_ (by rintro ⟨msg, ⟨⟩⟩)
    apply not_raisesUnique_checkChild hw
    exact not_raisesUnique_write (.insert C.name docId validated)
      ((editsReverse_registerFkReverse env docId validated).bind (EditsReverse.pure env _ docId))
      hw him

/-- So does `update`, where there is a document to replace. -/
theorem raisesUnique_update (hw : Serving w) (him : w.mem.get? C.name = some im)
    (hfree : LockManager.blocked env (jsonlPath C.name) .shared = false) {docId : String}
    (hlive : Live w C.name docId) (hvalid : C.model.dump document = .ok validated) :
    RaisesUnique ((C.update docId document).value env w) ↔
      RaisesUnique ((C.uniqueChecker.checkUpdate docId validated).value env w) := by
  have hc : C.name ∈ w.mem.keys := OrdDict.mem_keys_of_get? him
  obtain ⟨r, hr⟩ := Option.isSome_iff_exists.mp hlive
  have hget : (StorageEngine.get C.name docId).value env w = .ok (some r.stripId) := by
    rw [Prog.value, run_engine_get hw hc hfree, Table.get_eq_map_liveRow, hr]
    rfl
  rw [SchemaCollection.update, (Validator.readOnly_validate _ _).value_bind_of_ok
    (Validator.value_validate.mpr hvalid), (readOnly_engine_get _ _).value_bind_of_ok hget]
  dsimp only
  rcases hv : (C.uniqueChecker.checkUpdate docId validated).value env w with e | _
  · rw [Prog.value_bind_error hv]
  · have hread : Prog.ReadOnly (C.uniqueChecker.checkUpdate docId validated) :=
      UniqueConstraintChecker.readOnly_checkFields
    rw [hread.value_bind_of_ok hv]
    refine iff_of_false ?_ (by rintro ⟨msg, ⟨⟩⟩)
    apply not_raisesUnique_checkChild hw
    -- the document is taken out from under its parents first
    obtain ⟨hok, hchanged⟩ := (mapsReverse_unregisterFkReverse env docId r.stripId).changed
      (editsReverse_unregisterFkReverse env docId r.stripId) him
    rw [Prog.value_bind_ok hok]
    exact not_raisesUnique_write (.update C.name docId validated)
      (editsReverse_registerFkReverse env docId validated) (hchanged.serving hc hw)
      hchanged.get?_self

/-- **When the verdict of an insert is right.** -/
theorem exactInsert_iff (hw : Serving w) (him : w.mem.get? C.name = some im)
    (hindexes : UniqueIndexes C im (tables w.disk C.name))
    (hfree : LockManager.blocked env (jsonlPath C.name) .shared = false)
    (hvalid : C.model.dump document = .ok validated)
    (hstrings : ∀ fieldName ∈ C.model.getUniqueFields,
      validated.get fieldName = .none ∨ ∃ s, validated.get fieldName = .str s) :
    ExactInsert C env w document validated ↔
      (MeetsNull C im.specs w (fun _ => True) validated →
        Conflicts C w (fun _ => True) validated) := by
  have hconflict : ∀ existing, UniqueConstraintChecker.insertConflict existing = none ↔
      ∀ i ∈ existing, ¬True := by
    intro existing
    rw [UniqueConstraintChecker.insertConflict_eq_none, List.eq_nil_iff_forall_not_mem]
    simp only [not_true_eq_false, imp_false]
  rw [ExactInsert, raisesUnique_insert hw him hvalid, UniqueConstraintChecker.checkInsert,
    raisesUnique_checkFields_iff hw him hindexes hfree hconflict hstrings]
  exact or_iff_left_iff_imp

/-- **When the verdict of an update is right.** -/
theorem exactUpdate_iff (hw : Serving w) (him : w.mem.get? C.name = some im)
    (hindexes : UniqueIndexes C im (tables w.disk C.name))
    (hfree : LockManager.blocked env (jsonlPath C.name) .shared = false) {docId : String}
    (hlive : Live w C.name docId) (hvalid : C.model.dump document = .ok validated)
    (hstrings : ∀ fieldName ∈ C.model.getUniqueFields,
      validated.get fieldName = .none ∨ ∃ s, validated.get fieldName = .str s) :
    ExactUpdate C env w docId document validated ↔
      (MeetsNull C im.specs w (· ≠ docId) validated → Conflicts C w (· ≠ docId) validated) := by
  have hconflict : ∀ existing, UniqueConstraintChecker.updateConflict docId existing = none ↔
      ∀ i ∈ existing, ¬i ≠ docId := by
    intro existing
    rw [UniqueConstraintChecker.updateConflict_eq_none]
    simp only [not_not]
  rw [ExactUpdate, raisesUnique_update hw him hfree hlive hvalid,
    UniqueConstraintChecker.checkUpdate,
    raisesUnique_checkFields_iff hw him hindexes hfree hconflict hstrings]
  exact or_iff_left_iff_imp

end Calls

/-! ### Steps -/

/-- Validated unique values are strings or `None`. -/
def UniqueStrings (C : SchemaCollection) : Prop :=
  ∀ fieldName ∈ C.model.getUniqueFields, ∀ document validated,
    C.model.dump document = .ok validated →
      validated.get fieldName = .none ∨ ∃ s, validated.get fieldName = .str s

/-- An insert that returns leaves no entry behind: where it takes the id of a live
document, the new document has the same key in every index on a unique field. -/
def LeavesNoEntry (C : SchemaCollection) (specs : List IndexSpec) (w : Database) (env : Env)
    (step : SchemaStep) : Prop :=
  ∀ document validated docId r, step = .call C (.insert document) →
    C.model.dump document = .ok validated → (C.insert document).value env w = .ok docId →
    (tables w.disk C.name).liveRow docId = some r →
    ∀ fieldName ∈ C.model.getUniqueFields, HasIndex specs fieldName →
      (Doc.get r.doc fieldName).toStr = (validated.get fieldName).toStr

section Steps

variable {C : SchemaCollection} {env : Env} {w w' : Database} {im : IndexManager}
  {specs : List IndexSpec} {step : SchemaStep}

/-- An admitted write moves its id to the right key, if an insert leaves no entry
behind. -/
theorem refilesRight_of_admits (hmodel : C.model.JsonNative) {request : SchemaCall} {op : WriteOp}
    (hadmits : Admits C env w request op) {spec : IndexSpec} {fieldName : String}
    (hfield : fieldName ∈ C.model.getUniqueFields) (hfields : spec.fields = [fieldName])
    (hleaves : ∀ document validated r, request = .insert document →
      C.model.dump document = .ok validated →
      (tables w.disk C.name).liveRow op.docId = some r →
      (Doc.get r.doc fieldName).toStr = (validated.get fieldName).toStr) :
    op.RefilesRight (tables w.disk C.name) spec := by
  refine ⟨WriteOp.filedKey_of_clean (hadmits.clean hmodel) spec, fun hinsert key hkey => ?_⟩
  obtain ⟨r, hr, rfl⟩ := Option.map_eq_some_iff.mp hkey
  obtain ⟨_, -, rfl⟩ | ⟨validated, hchecked⟩ := hadmits.delete_or_document
  · cases hinsert
  · obtain ⟨hslot, hget⟩ := hchecked.slot_line hmodel
    rw [WriteOp.storedKey, hslot, Option.map_some, IndexSpec.key_single hfields,
      IndexSpec.key_single hfields, hget fieldName (Model.mem_keys_of_mem_fieldsWith hfield)]
    cases hadmits with
    | insert hvalid =>
        obtain rfl := Option.some.inj hchecked.document
        rw [hleaves _ _ r rfl hvalid hr]
    | update => cases hinsert
    | delete => cases hinsert

/-- **An admitted write** keeps the indexes on unique fields right. -/
theorem UniqueIndexes.admits (hmodel : C.model.JsonNative) (hstrings : UniqueStrings C)
    {request : SchemaCall} {op : WriteOp} (hadmits : Admits C env w request op)
    (hleaves : ∀ document validated r, request = .insert document →
      C.model.dump document = .ok validated →
      (tables w.disk C.name).liveRow op.docId = some r →
      ∀ fieldName ∈ C.model.getUniqueFields, HasIndex im.specs fieldName →
        (Doc.get r.doc fieldName).toStr = (validated.get fieldName).toStr)
    (h : UniqueIndexes C im (tables w.disk C.name)) (rev : SortedDict) :
    UniqueIndexes C { op.newIndexes (tables w.disk C.name) im with reverse := rev }
      ((tables w.disk C.name).set op.docId op.line.slot) := by
  constructor
  · intro i r hr fieldName hfield
    rw [Table.liveRow_set] at hr
    split at hr
    · obtain ⟨_, -, rfl⟩ | ⟨validated, hchecked⟩ := hadmits.delete_or_document
      · cases hr
      · obtain ⟨hslot, hget⟩ := hchecked.slot_line hmodel
        obtain ⟨document, hvalid⟩ := hchecked.valid
        obtain rfl := Option.some.inj (hslot.symm.trans hr)
        rw [hget fieldName (Model.mem_keys_of_mem_fieldsWith hfield)]
        exact hstrings fieldName hfield document validated hvalid
    · exact h.strings i r hr fieldName hfield
  · intro e he fieldName hfield hfields
    have hindexes := op.indexes_newIndexes (tables_wf w.disk C.name) im
    change e ∈ (op.newIndexes (tables w.disk C.name) im).indexes at he
    rw [hindexes] at he
    obtain ⟨e₀, he₀, rfl⟩ := List.mem_map.mp he
    rw [IndexManager.keyOf_set]
    apply (h.lists e₀ he₀ fieldName hfield hfields).refile_iff.mpr
    apply (op.refilesRight_iff _ _).mp
    apply refilesRight_of_admits hmodel hadmits hfield hfields
    intro document validated r hinsert hvalid hr
    exact hleaves document validated r hinsert hvalid hr fieldName hfield
      ⟨e₀.1, List.mem_map_of_mem he₀, hfields⟩

/-- A step that is no call on the collection. -/
theorem StepEffect.uniqueIndexes_of_no_call (heffect : StepEffect env w step w')
    (hother : ∀ sc request, step = .call sc request → sc.name ≠ C.name)
    (h : Indexed (UniqueIndexes C) C.name specs w) :
    Indexed (UniqueIndexes C) C.name specs w' := by
  cases heffect with
  | nothing => exact h
  | raised him hrev hchanged =>
      exact h.changed him hchanged hrev.specs fun hname => absurd hname (hother _ _ rfl)
  | @wrote _ _ op _ _ _ him _ hrev hchanged =>
      exact h.changed him hchanged (hrev.specs.trans op.specs_newIndexes) fun hname =>
        absurd hname (hother _ _ rfl)
  | @compacted _ im _ him hchanged =>
      apply h.changed him hchanged (im.specs_rebuild _)
      rintro rfl hindexes
      exact hindexes.rebuild (tables_wf _ _)

/-- **A call.** -/
theorem UniqueIndexes.perform (hmodel : C.model.JsonNative) (hstrings : UniqueStrings C)
    (hw : Serving w) {request : SchemaCall}
    (hleaves : LeavesNoEntry C specs w env (.call C request))
    (h : Indexed (UniqueIndexes C) C.name specs w) :
    Indexed (UniqueIndexes C) C.name specs ((request.perform C).exec env w) := by
  have hc := h.mem_keys
  obtain ⟨im, him, rfl, -⟩ := id h
  cases perform_outcome env hw him request with
  | refused hrun hwhy =>
      rw [Prog.exec, hrun]
      exact h
  | torn hcall hadmits hshared hheld hold herror hchanged =>
      exact h.changed him hchanged rfl fun _ hindexes => ⟨hindexes.strings, hindexes.lists⟩
  | @wrote op hadmits hfree hok hchanged =>
      refine h.changed him hchanged op.specs_newIndexes fun _ hindexes => ?_
      refine hindexes.admits hmodel hstrings hadmits ?_ _
      rintro document validated r rfl hvalid hr
      exact hleaves document validated op.docId r rfl hvalid (value_insert hw hc hadmits hfree) hr

end Steps

/-! ### Runs -/

/-- **When `UniqueConstraintError` is right.**  Take a new collection whose unique
values are strings or `None`, whatever its indexes, and any sequence of inserts,
updates and deletes on it, each in surroundings of its own and each succeeding or
raising, with compactions and calls on other collections between them, in which no
insert that returns leaves an entry of a unique index behind.  In every state the
verdict of `insert` on a valid document, and that of `update` on one for a live id,
are right just if the document does not have the string `None` in an indexed
unique field in which a rival has no value, or a rival has one of its values
besides. -/
theorem uniqueVerdicts_iff (C : SchemaCollection) (specs : List IndexSpec) (w₀ : Database)
    (steps : List (Env × SchemaStep)) (hmodel : C.model.JsonNative) (hstrings : UniqueStrings C)
    (hw : Serving w₀) (hnew : w₀.mem.get? C.name = some (IndexManager.new C.name specs))
    (hempty : ∀ docId, (tables w₀.disk C.name).get docId = none)
    (hsteps : ∀ s ∈ steps, ∀ sc request, s.2 = .call sc request →
      sc.name ∈ w₀.mem.keys ∧ (sc.name = C.name → sc = C))
    (hleaves : EachStep (LeavesNoEntry C specs) w₀ steps) :
    Throughout (fun w => ∀ env, LockManager.blocked env (jsonlPath C.name) .shared = false →
      ∀ document validated, C.model.dump document = .ok validated →
        (ExactInsert C env w document validated ↔
          (MeetsNull C specs w (fun _ => True) validated →
            Conflicts C w (fun _ => True) validated)) ∧
        ∀ docId, Live w C.name docId →
          (ExactUpdate C env w docId document validated ↔
            (MeetsNull C specs w (· ≠ docId) validated → Conflicts C w (· ≠ docId) validated)))
      w₀ steps := by
  have hdead : ∀ i, (tables w₀.disk C.name).liveRow i = none := fun i =>
    Option.map_eq_none_iff.mp (hempty i)
  have hstart : Indexed (UniqueIndexes C) C.name specs w₀ := by
    refine ⟨_, hnew, IndexManager.specs_new _ _, UniqueIndexes.of_exact
      (IndexManager.Exact.new hdead _ _) fun i r hr => ?_⟩
    rw [hdead] at hr
    cases hr
  have hrun : Throughout (fun w => Serving w ∧ w.mem.keys = w₀.mem.keys ∧
      Indexed (UniqueIndexes C) C.name specs w) w₀ steps := by
    refine Throughout.of_eachStep ⟨hw, rfl, hstart⟩ hleaves ?_
    rintro ⟨env, step⟩ hs w ⟨hw, hkeys, h⟩ hleaves
    obtain ⟨heffect, hw', hkeys'⟩ := serving_step ⟨hw, hkeys⟩
      fun sc request hcall => (hsteps _ hs sc request hcall).1
    refine ⟨hw', hkeys', ?_⟩
    cases step with
    | call sc request =>
        by_cases hname : sc.name = C.name
        · obtain rfl := (hsteps _ hs sc request rfl).2 hname
          exact UniqueIndexes.perform hmodel hstrings hw hleaves h
        · apply heffect.uniqueIndexes_of_no_call _ h
          rintro sc' request' ⟨⟩
          exact hname
    | compact c => exact heffect.uniqueIndexes_of_no_call nofun h
  apply hrun.mono
  rintro w ⟨hw, -, im, him, rfl, hindexes⟩ env hfree document validated hvalid
  have hvalues : ∀ fieldName ∈ C.model.getUniqueFields,
      validated.get fieldName = .none ∨ ∃ s, validated.get fieldName = .str s :=
    fun fieldName hfield => hstrings fieldName hfield document validated hvalid
  exact ⟨exactInsert_iff hw him hindexes hfree hvalid hvalues,
    fun docId hlive => exactUpdate_iff hw him hindexes hfree hlive hvalid hvalues⟩

/-! ### Users with an address of their own -/

/-- Users by their `id`, each with another `email`. -/
def uniqueUsers : SchemaCollection :=
  ⟨"users", textModel "User" (OrdDict.ofList [("id", ⟨[.field ⟨true, false, false⟩]⟩),
    ("email", ⟨[.field ⟨false, false, true⟩]⟩)]), OrdDict.empty⟩

theorem uniqueStrings_uniqueUsers : UniqueStrings uniqueUsers :=
  fun fieldName _ _ _ hvalid => get_dump_textModel hvalid fieldName

/-- An address that nobody has any more is refused to a new user. -/
theorem free_email_refused : UniqueStrings uniqueUsers ∧
    ¬Throughout (fun w => ∀ env, LockManager.blocked env (jsonlPath "users") .shared = false →
      ∀ document validated, uniqueUsers.model.dump document = .ok validated →
        ExactInsert uniqueUsers env w document validated) usersDb
      [(onlyClient, .call uniqueUsers (.insert (keyedUser "1" "a"))),
        (onlyClient, .call uniqueUsers (.insert (keyedUser "1" "b")))] := by
  refine ⟨uniqueStrings_uniqueUsers, fun h => ?_⟩
  have hexact := h.2.2.here onlyClient rfl (keyedUser "2" "a") (keyedUser "2" "a") rfl
  obtain ⟨fieldName, hfield, -, i, r, -, hr, hsame⟩ := hexact.mp ⟨_, rfl⟩
  obtain rfl : fieldName = "email" := List.mem_singleton.mp hfield
  -- the only user there is has another one
  have hrows : r ∈ [Record.ofDoc "1" (keyedUser "1" "b")] := Table.mem_rows.mpr ⟨i, hr⟩
  rw [List.mem_singleton.mp hrows] at hsame
  exact absurd hsame (by decide)

/-- An address is freed by an update, and given to a new user. -/
theorem uniqueVerdicts_users :
    Throughout (fun w => ∀ env, LockManager.blocked env (jsonlPath "users") .shared = false →
      ∀ document validated, uniqueUsers.model.dump document = .ok validated →
        (ExactInsert uniqueUsers env w document validated ↔
          (MeetsNull uniqueUsers [⟨["email"], true⟩] w (fun _ => True) validated →
            Conflicts uniqueUsers w (fun _ => True) validated)) ∧
        ∀ docId, Live w "users" docId →
          (ExactUpdate uniqueUsers env w docId document validated ↔
            (MeetsNull uniqueUsers [⟨["email"], true⟩] w (· ≠ docId) validated →
              Conflicts uniqueUsers w (· ≠ docId) validated))) usersDb
      [(onlyClient, .call uniqueUsers (.insert (keyedUser "1" "a"))),
        (onlyClient, .call uniqueUsers (.update "1" (keyedUser "1" "b"))),
        (onlyClient, .call uniqueUsers (.insert (keyedUser "2" "a")))] := by
  refine uniqueVerdicts_iff uniqueUsers [⟨["email"], true⟩] usersDb _
    (jsonNative_textModel "User" (by decide)) uniqueStrings_uniqueUsers usersDb_serving rfl
    (fun _ => rfl) ?_ ⟨?_, ?_, ?_, trivial⟩
  · simp only [List.forall_mem_cons, List.not_mem_nil, false_imp_iff, implies_true, and_true]
    refine ⟨?_, ?_, ?_⟩ <;>
    · rintro sc request ⟨⟩
      exact ⟨by decide, fun _ => rfl⟩
  · rintro document validated docId r ⟨⟩ - hok hr
    obtain rfl : "1" = docId := Except.ok.inj hok
    cases hr
  · rintro document validated docId r ⟨⟩
  · rintro document validated docId r ⟨⟩ - hok hr
    obtain rfl : "2" = docId := Except.ok.inj hok
    cases hr

end JsonpySql
