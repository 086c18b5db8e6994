/-
JsonpySql/FailedCalls.lean

Calls of a schema collection that raise.

A call checks, writes under the exclusive lock, and then records the parents of
what it has written; where a check fails or the lock is taken, nothing has
happened yet.  `update` alone edits the reverse index before the write.  Other
clients take and release their locks while a call is going on, so every request
for a lock has its own (`LockRequest`, `performAt`): where the checks of an update
pass and the lock for its write is taken, the document is taken out from under its
parents though it is stored as before (`atomicOnError_iff`).
-/
import JsonpySql.LostChildren

/-! ### Removing an element again and again -/

theorem length_iterate_erase_le {α : Type*} [DecidableEq α] (a : α) (n : ℕ) (l : List α) :
    ((fun l : List α => l.erase a)^[n] l).length ≤ l.length := by
  induction n generalizing l with
  | zero => exact le_rfl
  | succ n ih =>
      rw [Function.iterate_succ_apply]
      exact (ih _).trans List.length_erase_le

/-- Only an element that is there can be removed. -/
theorem iterate_erase_eq_iff {α : Type*} [DecidableEq α] {a : α} {n : ℕ} {l : List α} :
    (fun l : List α => l.erase a)^[n] l = l ↔ n = 0 ∨ a ∉ l := by
  constructor
  · intro heq
    by_contra! h
    obtain ⟨hn, ha⟩ := h
    obtain ⟨n, rfl⟩ := Nat.exists_eq_succ_of_ne_zero hn
    rw [Function.iterate_succ_apply] at heq
    have hle := length_iterate_erase_le a n (l.erase a)
    have hpos := List.length_pos_of_mem ha
    rw [heq, List.length_erase_of_mem ha] at hle
    omega
  · rintro (rfl | ha)
    · rfl
    · exact Function.iterate_fixed (List.erase_of_not_mem ha) n

namespace JsonpySql

open StorageEngine SchemaCollection

/-! ### One document taken out -/

/-- Unregistering removes the id once for each field that names the parent. -/
theorem ids_unregister (fields : List String) (docId : String) (document : Doc)
    (rev : SortedDict) (parentId : String) :
    InvertedIndex.ids (unregister fields docId document rev) parentId =
      (fun ids : List String => ids.erase docId)^[fields.countP fun fieldName =>
        document.get fieldName ≠ .none ∧ (document.get fieldName).toStr = parentId]
        (InvertedIndex.ids rev parentId) := by
  induction fields generalizing rev with
  | nil => rfl
  | cons fieldName fields ih =>
      rw [unregister, editReverse_cons, ← unregister, ih, List.countP_cons]
      by_cases hnone : document.get fieldName = .none
      · simp [hnone]
      · rw [if_neg hnone, InvertedIndex.ids_remove]
        by_cases hparent : (document.get fieldName).toStr = parentId
        · simp [hnone, hparent, Function.iterate_succ_apply]
        · simp [hparent, Ne.symm hparent]

/-- The children of a parent stay the same just if the document does not name
it, or is not listed under it. -/
theorem ids_unregister_eq_iff {fields : List String} {docId parentId : String} {document : Doc}
    {rev : SortedDict} :
    InvertedIndex.ids (unregister fields docId document rev) parentId =
        InvertedIndex.ids rev parentId ↔
      ¬(NamesParent fields document parentId ∧ docId ∈ InvertedIndex.ids rev parentId) := by
  rw [ids_unregister, iterate_erase_eq_iff, List.countP_eq_zero, not_and_or]
  refine or_congr_left ?_
  simp [NamesParent]

/-! ### The locks during a call -/

/-- The requests for a lock that a call makes: for reading the stored document,
for looking up a unique value, for reading the document a foreign key names, and
for the write. -/
inductive LockRequest
  | read
  | unique (fieldName : String)
  | parent (checker : ReferentialIntegrityChecker)
  | write

/-- The environment while other clients hold these locks. -/
def Env.holding (env : Env) (held : String → Option LockMode) : Env := { env with held }

/-- Run a part of a call while other clients hold these locks. -/
def whileHeld {α : Type} (held : String → Option LockMode) (p : EngineM α) : EngineM α :=
  Prog.inEnv (Env.holding · held) p

namespace SchemaCollection

-- `held` are the locks of other clients at every request of a call
variable (self : SchemaCollection) (held : LockRequest → String → Option LockMode)

def checkUniqueAt (document : Doc) (conflict : List String → Option String) : EngineM Unit :=
  self.uniqueChecker.uniqueFields.forM fun fieldName =>
    whileHeld (held (.unique fieldName))
      (self.uniqueChecker.checkField document conflict fieldName)

def checkChildAt (document : Doc) : EngineM Unit :=
  self.fkCheckers.values.forM fun checker =>
    whileHeld (held (.parent checker)) (checker.checkChildInsert document)

/-- `insert`, request by request. -/
def insertAt (document : Doc) : EngineM String := do
  let validated ← Validator.validate self.model document
  let docId ← self.extractOrGenerateId validated
  self.checkUniqueAt held validated UniqueConstraintChecker.insertConflict
  self.checkChildAt held validated
  whileHeld (held .write) do
    StorageEngine.insert self.name docId validated
    self.registerFkReverse docId validated
    return docId

/-- `update`, request by request. -/
def updateAt (docId : String) (document : Doc) : EngineM Unit := do
  let validated ← Validator.validate self.model document
  let oldDoc ← whileHeld (held .read) (StorageEngine.get self.name docId)
  match oldDoc with
  | none =>
      Prog.raise (.storageError
        ("Cannot update " ++ strRepr docId ++ " in collection " ++ strRepr self.name ++
          ": no such document. update() replaces existing documents only; " ++
          "use insert() to create a new one."))
  | some oldDoc => do
      self.checkUniqueAt held validated (UniqueConstraintChecker.updateConflict docId)
      self.checkChildAt held validated
      whileHeld (held .write) do
        self.unregisterFkReverse docId oldDoc
        StorageEngine.update self.name docId validated
        self.registerFkReverse docId validated

/-- `delete`, request by request. -/
def deleteAt (docId : String) : EngineM Unit := do
  self.fkCheckers.values.forM fun _ => pure ()
  let doc ← whileHeld (held .read) (StorageEngine.get self.name docId)
  whileHeld (held .write) do
    StorageEngine.delete self.name docId
    match doc with
    | none => pure ()
    | some doc => self.unregisterFkReverse docId doc

end SchemaCollection

/-- The call, request by request. -/
def SchemaCall.performAt (self : SchemaCollection)
    (held : LockRequest → String → Option LockMode) : SchemaCall → EngineM Unit
  | .insert document => do
      let _ ← self.insertAt held document
      return ()
  | .update docId document => self.updateAt held docId document
  | .delete docId => self.deleteAt held docId

namespace SchemaCollection

variable {self : SchemaCollection} {env : Env} {w : Database} {im : IndexManager}
  {held : LockRequest → String → Option LockMode} {document : Doc}

theorem run_checkUniqueAt (env : Env) (document : Doc) (conflict : List String → Option String)
    (w : Database) : (self.checkUniqueAt (fun _ => env.held) document conflict).run env w =
      (self.uniqueChecker.checkFields document conflict).run env w := by
  apply Prog.run_forM_congr
  intro fieldName w'
  rfl

theorem run_checkChildAt (env : Env) (document : Doc) (w : Database) :
    (self.checkChildAt (fun _ => env.held) document).run env w =
      (self.checkChild document).run env w := by
  apply Prog.run_forM_congr
  intro checker w'
  rfl

/-- **While the locks of other clients stay the same**, this is the call. -/
theorem run_performAt (env : Env) (request : SchemaCall) (w : Database) :
    (request.performAt self fun _ => env.held).run env w = (request.perform self).run env w := by
  cases request with
  | insert document =>
      refine Prog.run_bind_congr ?_ fun _ _ => rfl
      refine Prog.run_bind_congr rfl fun validated _ => ?_
      refine Prog.run_bind_congr rfl fun docId _ => ?_
      refine Prog.run_bind_congr (run_checkUniqueAt env validated _ _) fun _ _ => ?_
      exact Prog.run_bind_congr (run_checkChildAt env validated _) fun _ _ => rfl
  | update docId document =>
      refine Prog.run_bind_congr rfl fun validated _ => ?_
      refine Prog.run_bind_congr rfl fun oldDoc _ => ?_
      cases oldDoc with
      | none => rfl
      | some oldDoc =>
          refine Prog.run_bind_congr (run_checkUniqueAt env validated _ _) fun _ _ => ?_
          exact Prog.run_bind_congr (run_checkChildAt env validated _) fun _ _ => rfl
  | delete docId =>
      refine Prog.run_bind_congr rfl fun _ _ => ?_
      exact Prog.run_bind_congr rfl fun _ _ => rfl

theorem readOnly_checkUniqueAt {conflict : List String → Option String} :
    Prog.ReadOnly (self.checkUniqueAt held document conflict) :=
  Prog.readOnly_forM fun fieldName _ =>
    (UniqueConstraintChecker.readOnly_checkField fieldName).inEnv _

theorem readOnly_checkChildAt : Prog.ReadOnly (self.checkChildAt held document) :=
  Prog.readOnly_forM fun _ _ => ReferentialIntegrityChecker.readOnly_checkChildInsert.inEnv _

end SchemaCollection

/-! ### Calls that raise -/

/-- The stored documents, the forward indexes and the children of every parent
are the same. -/
structure Unaffected (w w' : Database) : Prop where
  tables : tables w'.disk = tables w.disk
  indexes : ∀ c, (w'.mem.get? c).map IndexManager.indexes =
    (w.mem.get? c).map IndexManager.indexes
  children : ∀ c parentId, (w'.mem.get? c).map (IndexManager.getChildren · parentId) =
    (w.mem.get? c).map (IndexManager.getChildren · parentId)

theorem Unaffected.refl (w : Database) : Unaffected w w := ⟨rfl, fun _ => rfl, fun _ _ => rfl⟩

/-- Where it raises, everything is as it was. -/
def Harmless {α : Type} (w : Database) (o : Outcome PyErr Registry DiskWrite α) : Prop :=
  ∀ e, o.result = .error e → Unaffected w ⟨o.mem, applyAll w.disk o.writes⟩

/-- If the call raises, everything is as it was. -/
def AtomicOnError (self : SchemaCollection) (held : LockRequest → String → Option LockMode)
    (env : Env) (w : Database) (request : SchemaCall) : Prop :=
  ∀ e, (request.performAt self held).value env w = .error e →
    Unaffected w ((request.performAt self held).exec env w)

/-- The document of an update is valid, the stored one can be read, and the unique
values and the foreign keys pass their checks. -/
structure ChecksPass (sc : SchemaCollection) (held : LockRequest → String → Option LockMode)
    (env : Env) (w : Database) (docId : String) (document validated : Doc) : Prop where
  valid : sc.model.dump document = .ok validated
  readable : LockManager.blocked (env.holding (held .read)) (jsonlPath sc.name) .shared = false
  unique : (sc.checkUniqueAt held validated (UniqueConstraintChecker.updateConflict docId)).value
    env w = .ok ()
  child : (sc.checkChildAt held validated).value env w = .ok ()

/-- The call is an update that passes its checks and then does not get the lock for
its write, and its document is listed under a parent it refers to. -/
def LosesChild (self : SchemaCollection) (held : LockRequest → String → Option LockMode)
    (env : Env) (w : Database) (request : SchemaCall) (parentId : String) : Prop :=
  ∃ docId document validated old, request = .update docId document ∧
    ChecksPass self held env w docId document validated ∧
    LockManager.blocked (env.holding (held .write)) (jsonlPath self.name) .exclusive = true ∧
    (JsonpySql.tables w.disk self.name).get docId = some old ∧
    NamesParent self.fkMeta.keys old parentId ∧
    ∃ im, w.mem.get? self.name = some im ∧ docId ∈ im.getChildren parentId

section Call

variable {self : SchemaCollection} {env : Env} {w w' : Database} {im : IndexManager}

/-- An edit of one reverse index is seen just in the children of its collection. -/
theorem unaffected_iff {c : String} (him : w.mem.get? c = some im) {rev : SortedDict}
    (hchanged : Changed w w' c (tables w.disk c) { im with reverse := rev }) :
    Unaffected w w' ↔ ∀ parentId,
      InvertedIndex.ids rev parentId = InvertedIndex.ids im.reverse parentId := by
  have hself : w'.mem.get? c = some { im with reverse := rev } := hchanged.get?_self
  constructor
  · intro h parentId
    have hsame := h.children c parentId
    rw [hself, him] at hsame
    exact Option.some.inj hsame
  · intro h
    refine ⟨?_, fun c' => ?_, fun c' parentId => ?_⟩
    · rw [hchanged.tables, Function.update_eq_self]
    · rcases eq_or_ne c' c with rfl | hne
      · rw [hself, him]
        rfl
      · rw [hchanged.get?_of_ne hne]
    · rcases eq_or_ne c' c with rfl | hne
      · rw [hself, him]
        exact congrArg some (h parentId)
      · rw [hchanged.get?_of_ne hne]

theorem harmless_error (w : Database) {α : Type} (e : PyErr) :
    Harmless w (⟨.error e, w.mem, []⟩ : Outcome PyErr Registry DiskWrite α) :=
  fun _ _ => Unaffected.refl w

/-- A write of the engine and the edits after it. -/
theorem harmless_after_write {α : Type} {q : EngineM α} {a : α} (op : WriteOp)
    (hq : EditsReverse env op.collection q a) (hw : Serving w)
    (him : w.mem.get? op.collection = some im) :
    Harmless w ((op.direct >>= fun _ => q).run env w) := by
  obtain hrun | ⟨hok, -⟩ := EditsReverse.after_write op hq hw him
  · rw [hrun]
    exact harmless_error w _
  · intro e he
    cases he.symm.trans hok

theorem harmless_insertAt (held : LockRequest → String → Option LockMode) (hw : Serving w)
    (him : w.mem.get? self.name = some im) (document : Doc) :
    Harmless w ((self.insertAt held document).run env w) := by
  refine (Validator.readOnly_validate _ _).bind_rule (fun e _ => harmless_error w e)
    fun validated _ => ?_
  refine readOnly_extractOrGenerateId.bind_rule (fun e _ => harmless_error w e) fun docId _ => ?_
  refine readOnly_checkUniqueAt.bind_rule (fun e _ => harmless_error w e) fun _ _ => ?_
  refine readOnly_checkChildAt.bind_rule (fun e _ => harmless_error w e) fun _ _ => ?_
  exact harmless_after_write (.insert self.name docId validated)
    ((editsReverse_registerFkReverse _ docId validated).bind (EditsReverse.pure _ _ docId)) hw him

theorem harmless_deleteAt (held : LockRequest → String → Option LockMode) (hw : Serving w)
    (him : w.mem.get? self.name = some im) (docId : String) :
    Harmless w ((self.deleteAt held docId).run env w) := by
  refine (readOnly_pass _).bind_rule (fun e _ => harmless_error w e) fun _ _ => ?_
  refine ((readOnly_engine_get _ _).inEnv _).bind_rule (fun e _ => harmless_error w e)
    fun doc _ => ?_
  exact harmless_after_write (.delete self.name docId) (editsReverse_afterDelete _ docId doc)
    hw him

/-- An update that raises leaves everything as it was, unless it loses a child. -/
theorem harmless_updateAt_iff (held : LockRequest → String → Option LockMode) (hw : Serving w)
    (him : w.mem.get? self.name = some im) (docId : String) (document : Doc) :
    Harmless w ((self.updateAt held docId document).run env w) ↔
      ∀ parentId, ¬LosesChild self held env w (.update docId document) parentId := by
  have hc : self.name ∈ w.mem.keys := OrdDict.mem_keys_of_get? him
  let P : Outcome PyErr Registry DiskWrite Unit → Prop := fun o =>
    Harmless w o ↔ ∀ parentId, ¬LosesChild self held env w (.update docId document) parentId
  show P ((self.updateAt held docId document).run env w)
  -- a check that fails ends the call, and then the update does not lose a child
  have hrefused : ∀ e, (∀ validated old, (tables w.disk self.name).get docId = some old →
      ¬ChecksPass self held env w docId document validated) → P ⟨.error e, w.mem, []⟩ := by
    intro e hfails
    refine iff_of_true (harmless_error w e) ?_
    rintro parentId ⟨_, _, validated, old, hcall, hpass, -, hold, -⟩
    obtain ⟨rfl, rfl⟩ := SchemaCall.update.inj hcall
    exact hfails validated old hold hpass
  refine (Validator.readOnly_validate _ _).bind_rule (fun e he => ?_) fun validated hvalidate => ?_
  · refine hrefused e fun _ _ _ hpass => ?_
    cases he.symm.trans (Validator.value_validate.mpr hpass.valid)
  have hvalid := Validator.value_validate.mp hvalidate
  refine ((readOnly_engine_get _ _).inEnv _).bind_rule (fun e he => ?_) fun oldDoc hget => ?_
  · refine hrefused e fun _ _ _ hpass => ?_
    obtain ⟨hheld, -⟩ := get_error hw hc he
    cases hheld.symm.trans hpass.readable
  have hreadable := free_of_get hw hc hget
  have hold := get_of_ok hw hc hget
  cases oldDoc with
  | none =>
      refine hrefused _ fun _ old hold' _ => ?_
      cases hold.trans hold'
  | some oldDoc =>
      refine readOnly_checkUniqueAt.bind_rule (fun e he => ?_) fun _ hunique => ?_
      · refine hrefused e fun validated' _ _ hpass => ?_
        obtain rfl := Except.ok.inj (hvalid.symm.trans hpass.valid)
        cases he.symm.trans hpass.unique
      refine readOnly_checkChildAt.bind_rule (fun e he => ?_) fun _ hchild => ?_
      · refine hrefused e fun validated' _ _ hpass => ?_
        obtain rfl := Except.ok.inj (hvalid.symm.trans hpass.valid)
        cases he.symm.trans hpass.child
      obtain ⟨hheld, herror, hchanged⟩ | ⟨hfree, hok, -⟩ :=
        rewrite_cases (env.holding (held .write)) hw him hold.symm validated
      · refine Iff.trans ⟨fun h => h _ herror, fun h _ _ => h⟩
          ((unaffected_iff him hchanged).trans ?_)
        refine forall_congr' fun parentId => ids_unregister_eq_iff.trans (not_congr ?_)
        constructor
        · rintro ⟨hnames, hlisted⟩
          exact ⟨_, _, _, _, rfl, ⟨hvalid, hreadable, hunique, hchild⟩, hheld, hold.symm, hnames,
            im, him, hlisted⟩
        · rintro ⟨_, _, _, old', hcall, -, -, hold', hnames, im', him', hlisted⟩
          obtain ⟨rfl, -⟩ := SchemaCall.update.inj hcall
          obtain rfl := Option.some.inj (hold.trans hold')
          obtain rfl := Option.some.inj (him.symm.trans him')
          exact ⟨hnames, hlisted⟩
      · refine iff_of_true (fun e he => ?_) ?_
        · cases he.symm.trans hok
        · rintro parentId ⟨_, _, _, _, -, -, hheld, -⟩
          cases hfree.symm.trans hheld

/-- **When a call that raises has done nothing.**  In every state, for every call on
a registered collection and whatever locks other clients take and release during
the call, raising leaves the stored documents, the forward indexes and the children
of every parent as they were, unless the call is an update that passes its checks
and then does not get the lock for its write, and whose document is listed under a
parent it refers to. -/
theorem atomicOnError_iff (held : LockRequest → String → Option LockMode) (hw : Serving w)
    (hc : self.name ∈ w.mem.keys) (request : SchemaCall) :
    AtomicOnError self held env w request ↔
      ∀ parentId, ¬LosesChild self held env w request parentId := by
  obtain ⟨im, him⟩ := OrdDict.exists_get?_of_mem hc
  cases request with
  | insert document =>
      refine iff_of_true (fun e he => ?_) ?_
      · rcases hinsert : (self.insertAt held document).value env w with e' | docId
        · have hexec : (SchemaCall.performAt self held (.insert document)).exec env w =
              (self.insertAt held document).exec env w := Prog.exec_bind_error hinsert
          rw [hexec]
          exact harmless_insertAt held hw him document e' hinsert
        · cases he.symm.trans (Prog.value_bind_ok hinsert)
      · rintro parentId ⟨_, _, _, _, hcall, -⟩
        cases hcall
  | update docId document => exact harmless_updateAt_iff held hw him docId document
  | delete docId =>
      refine iff_of_true (harmless_deleteAt held hw him docId) ?_
      rintro parentId ⟨_, _, _, _, hcall, -⟩
      cases hcall

end Call

/-- A shop with one order, of customer `c1`. -/
def oneOrderDb : Database :=
  (insertOrder "o1" "c1").2.exec onlyClient ((insertCustomer "c1").2.exec onlyClient indexedShopDb)

/-- Another client takes the exclusive lock of the orders just before the write. -/
def takenAtWrite : LockRequest → String → Option LockMode
  | .write, "orders.jsonl" => some .exclusive
  | _, _ => none

/-- The order is not updated, and no longer its customer's. -/
theorem update_loses_child :
    ¬AtomicOnError orders takenAtWrite onlyClient oneOrderDb
      (.update "o1" (orderDoc "o1" "c1")) := by
  intro h
  exact absurd ((h _ rfl).children "orders" "c1") (by decide)

/-- A delete that does not get its lock. -/
theorem atomicOnError_order :
    (SchemaCall.performAt orders takenAtWrite (.delete "o1")).value onlyClient oneOrderDb =
        .error (LockManager.timeoutError onlyClient .exclusive) ∧
      AtomicOnError orders takenAtWrite onlyClient oneOrderDb (.delete "o1") := by
  have hserving : Serving oneOrderDb := by
    unfold Serving
    decide
  refine ⟨rfl, (atomicOnError_iff takenAtWrite hserving (by decide) _).mpr ?_⟩
  rintro parentId ⟨_, _, _, _, hcall, -⟩
  cases hcall

end JsonpySql
